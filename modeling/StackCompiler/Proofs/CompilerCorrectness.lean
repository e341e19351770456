/-
**Compiling programs without calls is correct.**

A program is encoded, decoded, lowered, assembled and run.  Decoding gives back what is stored of
the program, which does the same; the depth that is estimated bounds the operand stack of every run,
so the frame has room for it; the stack lies far above the words of the program; and from there on
the machine follows the program.

* `compile_correct` — **the image that a program is compiled to ends with the status of the program
  and has written what it printed**.
-/

import StackCompiler.Compilation
import StackCompiler.Proofs.CodeSections
import StackCompiler.Proofs.ListingAssembly
import StackCompiler.Proofs.PlacedMarkers
import StackCompiler.Proofs.PlainCompilation

namespace StackCompiler

open Instruction (estimateDepth offsets offsetsFrom stored target)
open Compilation (assembled placed)

namespace PlainMachine

open Listing Lowering
open Lowering.Mips (popLines draft Context operation needsExit exitLines)
open Register (zero sp fp)
open Assembly (Image addressOf)

/-! ### What is stored of a program -/

section Stored

variable {list : List Instruction} {ins : Instruction}

theorem operand_stored (ins : Instruction) :
    ins.stored.operand 0 = ins.op.layout.storedOperand (ins.operand 0) := by
  have hzero : ins.op.layout.storedOperand 0 = 0 := by
    cases ins.op.layout <;> rfl
  show (ins.operands.map ins.op.layout.storedOperand).getD 0 0 =
    ins.op.layout.storedOperand (ins.operands.getD 0 0)
  cases ins.operands with
  | nil => exact hzero.symm
  | cons v vs => rfl

theorem half_stored (ins : Instruction) : ins.stored.half 0 = ins.half 0 := by
  -- slots are read from the lower half of an operand, and that is the half which is stored
  have hcut : ∀ v : Int32, (Int32.ofInt (v.toInt % 2 ^ 16)).toUInt32.toUInt16 =
      v.toUInt32.toUInt16 := by
    intro v
    rw [← Code.cut_operand]
    exact UInt16.toUInt16_toUInt32 v.toUInt32.toUInt16
  rw [Instruction.half, Instruction.half, operand_stored]
  cases ins.op.layout with
  | half => rw [Op.Layout.storedOperand, hcut]
  | halfPair => rw [Op.Layout.storedOperand, hcut]
  | none => rfl
  | word => rfl

theorem target_stored (h : ins.op = .jmp ∨ ins.op = .jmpz ∨ ins.op = .jmpnz) :
    ins.stored.target = ins.target := by
  have hinvoke : ins.op ≠ .invoke := by
    rcases h with h | h | h <;> rw [h] <;> decide
  have hlayout : ins.op.layout = .word := by
    rcases h with h | h | h <;> rw [h] <;> rfl
  rw [target, target, operand_stored, hlayout,
    show ins.stored.op = ins.op from rfl, if_neg hinvoke, if_neg hinvoke]
  rfl

theorem act_stored (ins : Instruction) (s : State) : act ins.stored s = act ins s := by
  unfold act
  rw [half_stored, show ins.stored.op = ins.op from rfl]
  split
  · next hop => rw [operand_stored, hop]; rfl
  all_goals rfl

theorem offsets_stored (list : List Instruction) : offsets (list.map stored) = offsets list := by
  have hfrom : ∀ start, offsetsFrom start (list.map stored) = offsetsFrom start list := by
    induction list with
    | nil => exact fun _ => rfl
    | cons ins list ih => exact fun start => congrArg (start :: ·) (ih _)
  exact hfrom 0

theorem jump_stored (list : List Instruction) (h : ins.op = .jmp ∨ ins.op = .jmpz ∨ ins.op = .jmpnz)
    (s : State) : jump (list.map stored) ins.stored s = jump list ins s := by
  rw [jump, jump, placeAt?, placeAt?, offsets_stored, target_stored h]

theorem step_stored (list : List Instruction) (s : State) :
    step (list.map stored) s = step list s := by
  unfold step
  rw [List.getElem?_map]
  cases list[s.place]? with
  | none => rfl
  | some ins =>
      simp only [Option.map_some, act_stored, show ins.stored.op = ins.op from rfl]
      split
      · rfl
      · next hop => exact jump_stored list (Or.inl hop) s
      · next hop => simp only [jumpOn, jump_stored list (Or.inr (Or.inl hop))]
      · next hop => simp only [jumpOn, jump_stored list (Or.inr (Or.inr hop))]
      · rfl

/-- **A program does what is stored of it does.** -/
theorem run_stored (list : List Instruction) (fuel : Nat) (s : State) :
    run (list.map stored) fuel s = run list fuel s := by
  induction fuel generalizing s with
  | zero => rfl
  | succ fuel ih => simp only [run, step_stored, ih]

theorem storedList_of_ops (hops : ∀ ins ∈ list, ins.op ∈ ops) :
    Code.storedList list = list.map stored := by
  rw [Code.storedList, List.filter_eq_self.2]
  intro ins hins
  rw [not_marker_of_mem_ops (hops ins hins)]
  rfl

end Stored

/-! ### Compiled programs -/

section Compiled

variable {elide : Bool} {image : Image} {ctx : Context} {list : List Instruction} {pos : Nat → Nat}

/-- The first instruction is where a program starts, and the end of an empty program. -/
theorem Placed.entry (h : Placed elide image ctx list pos) (hzero : ctx.functions.entry = 0)
    (hboundaries : ctx.functions.boundaries =
      Functions.boundariesOf (list.zip (offsets list)))
    (hops : ∀ ins ∈ list, ins.op ∈ ops) :
    image.labels[(Mips.entryLabel ctx.functions).render]? = some (addressOf (pos 0)) ∧
      (0 < list.length ∨ 0 = list.length ∧ needsExit ctx.functions list) := by
  have hstarts : ctx.functions.startsAt ctx.functions.entry =
      (list.zip (offsets list)).any fun x => !x.1.op.isMarker && x.2 == 0 := by
    rw [hzero, ← Functions.contains_boundariesOf, ← hboundaries]
    rfl
  cases list with
  | nil =>
      have hlabel : Mips.entryLabel ctx.functions = .exit := by
        rw [Mips.entryLabel, hstarts]
        rfl
      have hneeds : needsExit ctx.functions [] := by
        simp [needsExit, hlabel]
      rw [hlabel]
      exact ⟨(laid_label rfl (h.ending hneeds)).1, Or.inr ⟨rfl, hneeds⟩⟩
  | cons ins list =>
      have hmarker := not_marker_of_mem_ops (hops ins List.mem_cons_self)
      have hlabel : Mips.entryLabel ctx.functions = .start 0 := by
        rw [Mips.entryLabel, hstarts, hzero, offsets, offsetsFrom,
          List.zip_cons_cons, List.any_cons, hmarker]
        rfl
      rw [hlabel]
      exact ⟨h.label rfl, Or.inl (Nat.succ_pos _)⟩

theorem shape_estimated {s : Settings} (hs : s.validate = .ok ()) (hslots : s.localSlots = 16)
    (hdepth : s.stackDepth = 0)
    (hcheck : (Frame.ofProgram ⟨list, Int64.ofNat (estimateDepth list)⟩ s).check =
      .ok ()) :
    ∃ S, (Frame.ofProgram ⟨list, Int64.ofNat (estimateDepth list)⟩ s).Shape 16
      (estimateDepth list) S := by
  have hle : estimateDepth list ≤ 16384 := Flow.deepest_le (Flow.ofList list)
  have hestimated : Frame.depthFor ⟨list, Int64.ofNat (estimateDepth list)⟩ s =
      Int64.ofNat (estimateDepth list) := by
    rw [Frame.depthFor, hdepth, if_neg (by decide)]
    split <;> rfl
  have hint : (Int64.ofNat (estimateDepth list)).toInt =
      estimateDepth list := Int64.toInt_ofNat_of_lt (by omega)
  obtain ⟨L, D, S, hf⟩ := Frame.shape_ofProgram hs (by rw [hestimated, hint]; omega)
    (by rw [hestimated, hint]; omega) hcheck
  obtain rfl : L = 16 := by
    have := hf.slots
    rw [show (Frame.ofProgram _ s).localSlots = s.localSlots from rfl, hslots] at this
    exact (Int.ofNat.inj this).symm
  obtain rfl : D = estimateDepth list := by
    have := hf.depth
    rw [show (Frame.ofProgram _ s).depth = Frame.depthFor _ s from rfl, hestimated, hint] at this
    exact (Int.ofNat.inj this).symm
  exact ⟨S, hf⟩

/-- **What is lowered from a program without calls does what the program does.** -/
theorem lowered_correct {s : Settings} {out : Mips.Output} (hs : s.validate = .ok ())
    (hslots : s.localSlots = 16) (hdepth : s.stackDepth = 0) (htop : s.stackTop = 0x7fffeff8)
    (himplicit : s.features.implicitEntry = true) (hops : ∀ ins ∈ list, ins.op ∈ ops)
    (hlower : Mips.lower ⟨list, Int64.ofNat (estimateDepth list)⟩ s = .ok out)
    (himage : Assembly.assemble elide (out.lines.map Line.render) = .ok image)
    (hsize : image.words.size < 2 ^ 26) {fuel : Nat} {status : Int32} {printed : List Int32}
    (hrun : PlainMachine.run list fuel {} = some (status, printed)) :
    ∃ n m, (Machine.ofWords image.words).Goes n m ∧ m.halted = true ∧ m.exitCode = status ∧
      m.output.toList = printedLines printed := by
  obtain ⟨-, -, hcheck, -⟩ := Mips.lower_ok hlower
  obtain ⟨S, hf⟩ := shape_estimated hs hslots hdepth hcheck
  have haddressable : image.Addressable := ⟨hsize, Assembly.label_address himage⟩
  obtain ⟨fs, hfs, pos, hprologue, hlines, hending⟩ :=
    Mips.ordinary_lines hlower himage fun ins hins => ordinary_of_mem_ops (hops ins hins)
  obtain ⟨fs', hfs', hzero, hentry, hboundaries⟩ := functions_of_ops hops
  obtain rfl : fs = fs' := Except.ok.inj ((himplicit ▸ hfs).symm.trans hfs')
  have hplaced : Placed elide image ⟨_, fs⟩ list pos := ⟨hlines, hending⟩
  obtain ⟨hlabel, hplace⟩ := hplaced.entry hzero hboundaries hops
  -- the stack starts far above the words of the program, and ends below the upper half of memory
  have hsmall := hf.small
  have hfits := hf.fits
  have haligned := hf.aligned
  have hstack : s.stackTop.toNat = (2147479544 - S) + S := by
    rw [htop]
    show 2147479544 = _
    omega
  obtain ⟨n, m, hgoes, hm⟩ :=
    stands_start haddressable hf hprologue hlabel hstack (by omega) (by omega)
  -- the frame has room for all cells, since the depth that is reserved is not the limit
  have hlimit : (Flow.ofList list).deepest < depthLimit := by
    show estimateDepth list < 16384
    omega
  obtain ⟨level, hlevel⟩ := Flow.settled_of_deepest_lt hlimit
  have hbounded : CallFrames.Bounded list level (estimateDepth list) ⟨⟨0, 0⟩, []⟩ :=
    ⟨CallFrames.Fits.of_start hlevel List.mem_cons_self, List.forall_mem_nil _⟩
  obtain ⟨n', m', hgoes', hdone⟩ := Stands.run hplaced haddressable hf (by omega) (by omega) hops
    hentry hlevel hrun hm hbounded hplace
  exact ⟨n + n', m', hgoes.trans hgoes', hdone⟩

end Compiled

end PlainMachine

/-! ### Compiling -/

theorem Symbol.place_nil (list : List Instruction) (names : List Text) :
    (Symbol.place list [] names).instructions = list := by
  rw [Symbol.place_eq]
  generalize 0 = n
  induction list generalizing n with
  | nil => rfl
  | cons ins list ih => exact congrArg (ins :: ·) (ih _)

section Phases

variable {code : List UInt8} {symbols : List Symbol} {s : Settings}

theorem Target.ofName?_mips (htarget : s.target = mipsTarget) :
    Target.ofName? s.target = some .mips := by
  rw [htarget]
  decide

/-- **The phases of compiling**, for the machine, and what is kept of them. -/
theorem compile_parts {c : Compilation} (htarget : s.target = mipsTarget)
    (h : compile code symbols s = .ok c) :
    s.validate = .ok () ∧ Code.decode code = .ok (c.format, c.decoded) ∧
      c.program = (placed c.decoded symbols s).1 ∧
      ∃ out image, c.lowered = .mips out ∧ c.image = some image ∧
        Lowering.Mips.lower c.program s = .ok out ∧
        Assembly.assemble s.features.laElide (out.lines.map Listing.Line.render) = .ok image := by
  obtain ⟨⟨⟩, hvalid, h⟩ := bind_ok_iff.1 h
  obtain ⟨⟨f, list⟩, hdecode, h⟩ := bind_ok_iff.1 h
  simp only [Target.ofName?_mips htarget] at h
  obtain ⟨lowered, hlower, h⟩ := bind_ok_iff.1 h
  obtain ⟨out, hout, rfl⟩ := map_ok_iff.1 (mapError_ok_iff.1 hlower)
  obtain ⟨image?, himage, h⟩ := bind_ok_iff.1 h
  rw [assembled, if_pos htarget] at himage
  split at himage
  · next image hassemble =>
    obtain rfl := Except.ok.inj himage
    obtain rfl := pure_ok_iff.1 h
    exact ⟨mapError_ok_iff.1 hvalid, mapError_ok_iff.1 hdecode, rfl, out, image, rfl, rfl, hout,
      hassemble⟩
  · cases himage

theorem compile_ok {c : Compilation} (htarget : s.target = mipsTarget)
    (h : compile code symbols s = .ok c) :
    ∃ f list out image, s.validate = .ok () ∧ Code.decode code = .ok (f, list) ∧
      Lowering.Mips.lower (placed list symbols s).1 s = .ok out ∧
      Assembly.assemble s.features.laElide (out.lines.map Listing.Line.render) = .ok image ∧
      c.image = some image := by
  obtain ⟨hvalid, hdecode, hprogram, out, image, -, hc, hlower, himage⟩ := compile_parts htarget h
  exact ⟨_, _, out, image, hvalid, hdecode, hprogram ▸ hlower, himage, hc⟩

/-- When all phases succeed, so does compiling. -/
theorem compile_of_phases (symbols : List Symbol) {f : Format} {list : List Instruction}
    {out : Lowering.Mips.Output} {image : Assembly.Image} (htarget : s.target = mipsTarget)
    (hvalid : s.validate = .ok ()) (hdecode : Code.decode code = .ok (f, list))
    (hlower : Lowering.Mips.lower (placed list symbols s).1 s = .ok out)
    (himage : Assembly.assemble s.features.laElide (out.lines.map Listing.Line.render) =
      .ok image) :
    ∃ c, compile code symbols s = .ok c ∧ c.image = some image := by
  have hassembled : assembled (.mips out) s = .ok (some image) := by
    rw [assembled, if_pos htarget,
      show (Lowered.mips out).lines = out.lines.map Listing.Line.render from rfl, himage]
  unfold compile
  simp only [hvalid, hdecode, Except.mapError, ok_bind, Target.ofName?_mips htarget, Target.lower,
    hlower, Except.map, hassembled]
  exact ⟨_, rfl, rfl⟩

end Phases

/-- **Programs without calls are compiled correctly.**  If a program made of such operations is
encoded, and what it is encoded to is compiled without symbols, then the image does what the program
does: when the program ends with a status, the machine halts with that status, and it has written
the numbers that the program printed, one to a line. -/
theorem compile_correct {f : Format} {list : List Instruction} {code : List UInt8} {elide : Bool}
    {c : Compilation} {fuel : Nat} {status : Int32} {printed : List Int32}
    (hops : ∀ ins ∈ list, ins.op ∈ PlainMachine.ops) (hcode : Code.encode f list = .ok code)
    (hc : compile code [] { features := { laElide := elide } } = .ok c)
    (hrun : PlainMachine.run list fuel {} = some (status, printed)) :
    ∃ image, c.image = some image ∧ (image.words.size < 2 ^ 26 →
      ∃ n, ∀ fuel ≥ n, ∃ m, Machine.runLimited fuel 0 (Machine.ofWords image.words) = (m, .halted) ∧
        m.exitCode = status ∧ m.output.toList = PlainMachine.printedLines printed) := by
  obtain ⟨f', decoded, out, image, hvalid, hdecode, hlower, himage, hc⟩ := compile_ok rfl hc
  obtain rfl := Code.decoded_of_encode hcode hdecode
  rw [PlainMachine.storedList_of_ops hops] at hlower
  have hplaced : (placed (list.map stored) []
      { features := { laElide := elide } }).1 = ⟨list.map stored,
        Int64.ofNat (estimateDepth (list.map stored))⟩ := by
    rw [placed, Symbol.resolve, Option.getD_some, Symbol.place_nil]
    rfl
  rw [hplaced] at hlower
  rw [← PlainMachine.run_stored] at hrun
  refine ⟨image, hc, fun hsize => ?_⟩
  have hops' : ∀ ins ∈ list.map stored, ins.op ∈ PlainMachine.ops :=
    List.forall_mem_map.2 hops
  obtain ⟨n, m, hgoes, hhalted, hstatus, houtput⟩ := PlainMachine.lowered_correct hvalid rfl rfl rfl
    rfl hops' hlower himage hsize hrun
  refine ⟨n, fun fuel hfuel => ⟨m, ?_, hstatus, houtput⟩⟩
  rw [Machine.runLimited, show Machine.limitOf 0 = none from rfl]
  exact hgoes.run hhalted hfuel

/-! ### A program that counts -/

namespace PlainMachine

open Listing Lowering
open Lowering.Mips (popLines draft operation needsExit exitLines)
open Register (zero sp fp)

/-- Prints the numbers from three down to one and ends with seven. -/
def countSample : List Instruction :=
  [⟨.iconst, [3], []⟩, ⟨.store, [0], []⟩, ⟨.load, [0], []⟩, ⟨.print, [], []⟩, ⟨.load, [0], []⟩,
    ⟨.iconst, [1], []⟩, ⟨.isub, [], []⟩, ⟨.dup, [], []⟩, ⟨.store, [0], []⟩, ⟨.jmpnz, [8], []⟩,
    ⟨.iconst, [7], []⟩, ⟨.ret, [], []⟩]

/-- The frame of the sample. -/
def countFrame : Frame := ⟨16, 80, 2, 88⟩

/-- The lines of an instruction of the sample at an offset. -/
def countPart : Nat → Instruction → List Line
  | 25, ins => (.place 25 ins :: popLines 8) ++ [.branch .bne 8 zero (.start 8)]
  | 35, ins => .place 35 ins :: exitLines (.status 35)
  | offset, ins => .place offset ins :: actLines ins

/-- The lines of the sample. -/
def countLines : List Line :=
  [.textSection, .visible .main, .label .main, .code .la [.register sp, .address 0x7fffeff8],
    .immediate .addiu sp sp (-88), .move fp sp] ++ Mips.enterFrame countFrame ++
    [.jump (.start 0)] ++
    ((countSample.zip (offsets countSample)).map fun x => countPart x.2 x.1).flatten

theorem estimateDepth_countSample : estimateDepth countSample = 2 :=
  Flow.estimateDepth_of_within 40 (by decide +kernel)

theorem lower_countSample :
    ∃ out, Mips.lower ⟨countSample, Int64.ofNat (estimateDepth countSample)⟩ {} =
      .ok out ∧ out.lines = countLines := by
  have hops : ∀ ins ∈ countSample, ins.op ∈ ops := by decide
  obtain ⟨fs, hfs, hzero, hentry, -⟩ := functions_of_ops hops
  have hjump : draft ⟨countFrame, fs⟩ 25 ⟨.jmpnz, [8], []⟩ =
      .ok (countPart 25 ⟨.jmpnz, [8], []⟩) := by
    -- a hash map does not reduce, so the place is looked up by lemma
    have htarget : fs.startsAt (target ⟨.jmpnz, [8], []⟩) = true :=
      Functions.startsAt_of_any (n := 8) hfs rfl
    simp only [draft, operation, Mips.jumpOn, Mips.targetLabel, if_pos htarget, pure_bind]
    rfl
  have hret : draft ⟨countFrame, fs⟩ 35 ⟨.ret, [], []⟩ = .ok (countPart 35 ⟨.ret, [], []⟩) := by
    simp only [draft, operation, hentry, if_true]
    rfl
  have hdrafts : List.Forall₂ (fun x ls => draft ⟨countFrame, fs⟩ x.2 x.1 = .ok ls)
      (countSample.zip (offsets countSample))
      ((countSample.zip (offsets countSample)).map fun x => countPart x.2 x.1) :=
    .cons rfl (.cons rfl (.cons rfl (.cons rfl (.cons rfl (.cons rfl (.cons rfl (.cons rfl
      (.cons rfl (.cons hjump (.cons rfl (.cons hret .nil)))))))))))
  rw [estimateDepth_countSample]
  have hframe : Frame.ofProgram ⟨countSample, 2⟩ {} = countFrame := by decide
  obtain ⟨out, hlower, -, hlines⟩ := Mips.lower_of_drafts (p := ⟨countSample, 2⟩) (s := {}) rfl hfs
    (fun ins hins => ordinary_of_mem_ops (hops ins hins)) (hframe.symm ▸ hdrafts)
  have hlabel : Mips.entryLabel fs = .start 0 := by
    rw [Mips.entryLabel, hzero]
    exact if_pos (Functions.startsAt_of_any (n := 0) hfs rfl)
  have hreturns : Mips.entryReturns fs (countSample.zip (offsets countSample)) = true :=
    List.any_eq_true.2 ⟨(⟨.ret, [], []⟩, 35), by decide, hentry 35⟩
  have hneeds : needsExit fs countSample = false := by
    rw [needsExit, hlabel, hreturns]
    rfl
  refine ⟨out, hlower, ?_⟩
  rw [hlines, hneeds, Mips.prologue, hframe, hlabel]
  rfl

end PlainMachine

open PlainMachine (countSample) in
theorem compile_correct_countSample :
    ∃ code c image, Code.encode .kats countSample = .ok code ∧ compile code [] {} = .ok c ∧
      PlainMachine.run countSample 40 {} = some (7, [3, 2, 1]) ∧ c.image = some image ∧
      image.words.size < 2 ^ 26 ∧
      ∃ n, ∀ fuel ≥ n, ∃ m, Machine.runLimited fuel 0 (Machine.ofWords image.words) = (m, .halted) ∧
        m.exitCode = 7 ∧ m.output.toList = text "3\n2\n1\n" := by
  obtain ⟨code, hcode⟩ : ∃ code, Code.encode .kats countSample = .ok code := ⟨_, rfl⟩
  have hdecode : Code.decode code = .ok (.kats, countSample) :=
    Code.decode_of_encode (by decide) hcode
  obtain ⟨out, hlower, hlines⟩ := PlainMachine.lower_countSample
  have hformed : Listing.WellFormed PlainMachine.countLines :=
    ⟨by decide, by decide, by decide, by decide, by decide⟩
  obtain ⟨image, himage, hsize⟩ := hformed.assembles true
  rw [← hlines] at himage
  obtain ⟨c, hc, hcimage⟩ := compile_of_phases [] (s := {}) rfl rfl hdecode
    (by rw [placed, Symbol.resolve, Option.getD_some, Symbol.place_nil]; exact hlower) himage
  have hrun : PlainMachine.run countSample 40 {} = some (7, [3, 2, 1]) := by decide +kernel
  have hsize' : image.words.size < 2 ^ 26 := Nat.lt_of_le_of_lt hsize (by decide)
  obtain ⟨image', himage', hhalts⟩ := compile_correct (by decide) hcode hc hrun
  obtain rfl : image = image' := Option.some.inj (hcimage.symm.trans himage')
  exact ⟨code, c, image, hcode, hc, hrun, hcimage, hsize', hhalts hsize'⟩

end StackCompiler
