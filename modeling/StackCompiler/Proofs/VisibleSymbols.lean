/-
**Visible names and the code of a program.**

A symbol that all see becomes a visibility marker, and a marker only names a place.  But it also
starts a function, and this has two effects on the code.  A return that was in the entry function
may no longer be, so that it goes back to a caller instead of ending the program; and a walk that
looks for the deepest stack has one more place to start from, so that frames may become larger.
Where neither happens, the code stays the same word for word.

* `compile_visible` — **one more visible name leaves the code as it is**, unless it cuts a return
  off from the entry function or changes the size of frames.
-/

import StackCompiler.Proofs.CompilerCorrectness
import StackCompiler.Proofs.GeneratedListings
import StackCompiler.Proofs.ListingWords
import StackCompiler.Proofs.RenamedPrograms

namespace StackCompiler

open Listing
open Instruction (offsets)

namespace Lowering.Mips

/-! ### Instructions in two programs -/

/-- Contexts that differ in nothing that the lines of an instruction depend on, returns apart. -/
structure Context.Like (c c' : Context) : Prop where
  slots : c'.frame.localSlots = c.frame.localSlots
  base : c'.frame.base = c.frame.base
  size : c'.frame.size = c.frame.size
  starts : ∀ target, c'.functions.startsAt target = c.functions.startsAt target
  entry : c'.functions.entry = c.functions.entry

section Like

variable {c c' : Context} {ins : Instruction} {offset : Nat} {p q p' : Progress}

/-- **What the lines of an instruction depend on**: the frame, whether an instruction starts where
it goes to, and for a return whether it ends the program. -/
theorem draft_congr_at (hslots : c'.frame.localSlots = c.frame.localSlots)
    (hbase : c'.frame.base = c.frame.base) (hsize : c'.frame.size = c.frame.size)
    (hstarts : ins.op ∈ [.jmp, .jmpz, .jmpnz, .invoke] →
      c'.functions.startsAt ins.target = c.functions.startsAt ins.target)
    (hret : ins.op = .ret → c'.functions.inEntry offset = c.functions.inEntry offset) :
    draft c' offset ins = draft c offset ins := by
  have hop : operation c' offset ins = operation c offset ins := by
    cases hop : ins.op with
    | ret => simp only [operation, hop, hret hop, returnToCaller, hsize]
    | load => simp only [operation, hop, loadLocal, slot, hslots]
    | store => simp only [operation, hop, storeLocal, slot, hslots]
    | jmp => simp only [operation, hop, jump, targetLabel, hstarts (by simp [hop])]
    | jmpz | jmpnz => simp only [operation, hop, jumpOn, targetLabel, hstarts (by simp [hop])]
    | invoke =>
        simp only [operation, hop, call, targetLabel, enterFrame, hstarts (by simp [hop]), hslots,
          hbase, hsize]
    | _ => simp only [operation, hop]
  rw [draft, draft, hop]

theorem draft_congr (h : c.Like c')
    (hret : ins.op = .ret → c'.functions.inEntry offset = c.functions.inEntry offset) :
    draft c' offset ins = draft c offset ins :=
  draft_congr_at h.slots h.base h.size (fun _ => h.starts _) hret

theorem prologue_congr (h : c.Like c') (stackTop : UInt32) :
    prologue c' stackTop = prologue c stackTop := by
  simp only [prologue, enterFrame, entryLabel, h.size, h.base, h.entry, h.starts]

theorem bare_append (xs ys : List Line) : bare (xs ++ ys) = bare xs ++ bare ys :=
  List.filter_append xs ys

/-- The lines of a visibility marker are names and remarks. -/
theorem add_visible (c : Context) (p : Progress) (offset : Nat) (hop : ins.op = .global) :
    ∃ q, p.add c ins offset = .ok q ∧ bare q.lines.toList = bare p.lines.toList := by
  have hdeclare : bare (declare p.names ins.symbol).1 = [] := by
    unfold declare
    split
    · rfl
    · split <;> rfl
  simp only [Progress.add, hop]
  refine ⟨_, rfl, ?_⟩
  rw [Array.toList_appendList, bare_append, hdeclare, List.append_nil]

/-- One instruction adds the same lines to two listings, names and remarks apart. -/
theorem add_bare (hdraft : draft c' offset ins = draft c offset ins)
    (hp : bare p'.lines.toList = bare p.lines.toList) (h : p.add c ins offset = .ok q) :
    ∃ q', p'.add c' ins offset = .ok q' ∧ bare q'.lines.toList = bare q.lines.toList := by
  by_cases hop : ins.op = .global
  · obtain ⟨r, hr, hbare⟩ := add_visible c p offset hop
    obtain ⟨r', hr', hbare'⟩ := add_visible c' p' offset hop
    obtain rfl := Except.ok.inj (hr.symm.trans h)
    exact ⟨r', hr', by rw [hbare', hbare, hp]⟩
  · rw [Progress.add] at h ⊢
    split at h
    case h_2 hglobal => exact absurd hglobal hop
    case h_4 =>
      rw [hdraft]
      split at h
      · obtain rfl := Except.ok.inj h
        refine ⟨_, rfl, ?_⟩
        rw [Array.toList_appendList, Array.toList_appendList, bare_append, bare_append, hp]
      · cases h
    all_goals
      obtain rfl := Except.ok.inj h
      refine ⟨_, rfl, ?_⟩
      rw [Array.toList_push, Array.toList_push, bare_append, bare_append, hp]

/-- **More visibility markers add names and remarks only.** -/
theorem written_marked {M : Nat → Prop} {xs ys : List (Instruction × Nat)} (h : Marked M xs ys)
    (hdraft : ∀ x ∈ xs, draft c' x.2 x.1 = draft c x.2 x.1)
    (hw : xs.foldlM (fun w x => Progress.add c w x.1 x.2) p = .ok q) (p' : Progress)
    (hp : bare p'.lines.toList = bare p.lines.toList) :
    ∃ q', ys.foldlM (fun w x => Progress.add c' w x.1 x.2) p' = .ok q' ∧
      bare q'.lines.toList = bare q.lines.toList := by
  induction h generalizing p p' with
  | nil =>
      obtain rfl := foldlM_nil_ok_iff.1 hw
      exact ⟨p', rfl, hp⟩
  | keep x _ ih =>
      obtain ⟨hx, hdraft⟩ := List.forall_mem_cons.1 hdraft
      obtain ⟨r, hr, hw⟩ := foldlM_cons_ok_iff.1 hw
      obtain ⟨r', hr', hbare⟩ := add_bare hx hp hr
      obtain ⟨q', hq', hq⟩ := ih hdraft hw r' hbare
      exact ⟨q', foldlM_cons_ok_iff.2 ⟨r', hr', hq'⟩, hq⟩
  | @mark _ _ m hop _ _ ih =>
      obtain ⟨r', hr', hbare⟩ := add_visible c' p' m.2 hop
      obtain ⟨q', hq', hq⟩ := ih hdraft hw r' (hbare.trans hp)
      exact ⟨q', foldlM_cons_ok_iff.2 ⟨r', hr', hq'⟩, hq⟩

end Like

/-! ### Programs -/

theorem fallsThrough_marked {list list' : List Instruction} {M : Nat → Prop}
    (h : Marked M (list.zip (offsets list)) (list'.zip (offsets list'))) :
    fallsThrough list' = fallsThrough list := by
  have hfind : ∀ list : List Instruction, list.reverse.find? (fun ins => !ins.op.isMarker) =
      (((list.zip (offsets list)).filter fun x => !x.1.op.isMarker).map
        Prod.fst).reverse.head? := by
    intro list
    have hfst : (list.zip (offsets list)).map Prod.fst = list :=
      List.map_fst_zip (by simp)
    rw [← List.head?_filter, List.filter_reverse]
    conv => lhs; rw [← hfst, List.filter_map]
    rfl
  rw [fallsThrough, fallsThrough, hfind, hfind, h.filter fun x hop => by simp [hop, Op.isMarker]]

variable {p p' : Program} {s : Settings} {out : Output} {fs : Functions} {M : Nat → Prop}

/-- **The listing of a program with more visibility markers**, if no return is cut off and frames
keep their size. -/
theorem lower_marked (hsize : (Frame.ofProgram p' s).size = (Frame.ofProgram p s).size)
    (h : Marked M (p.instructions.zip (offsets p.instructions))
      (p'.instructions.zip (offsets p'.instructions)))
    (hfs : Functions.ofList p.instructions s.features.implicitEntry = .ok fs)
    (hcuts : ∀ n, M n → ¬fs.Cuts p.instructions n) (hlower : lower p s = .ok out) :
    ∃ out', lower p' s = .ok out' ∧ bare out'.lines = bare out.lines := by
  obtain ⟨fs₁, w, hcheck, hfs₁, hw, -, hlines⟩ := lower_ok hlower
  obtain rfl := Except.ok.inj (hfs.symm.trans hfs₁)
  obtain ⟨fs', hfs', hentry, hstarts, hin⟩ := Functions.of_marked h hfs
  have hlike : Context.Like ⟨Frame.ofProgram p s, fs⟩ ⟨Frame.ofProgram p' s, fs'⟩ :=
    ⟨rfl, rfl, hsize, hstarts, hentry⟩
  have hreturns : ∀ x ∈ p.instructions.zip (offsets p.instructions), x.1.op = .ret →
      fs'.inEntry x.2 = fs.inEntry x.2 := by
    intro x hx hop
    refine hin x.2 fun n hn hentry => ?_
    by_cases hle : n ≤ fs.entry
    · exact Or.inl hle
    · refine Or.inr (Nat.lt_of_not_le fun hle' => hcuts n hn ?_)
      exact ⟨Nat.lt_of_not_le hle, x, hx, hop, hentry, hle'⟩
  obtain ⟨w', hw', hbare⟩ := written_marked h
    (fun x hx => draft_congr hlike (hreturns x hx)) hw {} rfl
  have hcheck' : (Frame.ofProgram p' s).check = .ok () := by
    rw [Frame.check] at hcheck ⊢
    rw [hsize]
    split at hcheck
    · cases hcheck
    · next hfits => exact if_neg hfits
  obtain ⟨out', hout', -, hlines'⟩ := lower_of_parts hcheck' hfs' hw'
  have hneeds : needsExit fs' p'.instructions = needsExit fs p.instructions := by
    have hends : entryReturns fs' (p'.instructions.zip (offsets p'.instructions)) =
        entryReturns fs (p.instructions.zip (offsets p.instructions)) := by
      rw [entryReturns, entryReturns, h.any fun x hop => by simp [hop], Bool.eq_iff_iff,
        List.any_eq_true, List.any_eq_true]
      refine exists_congr fun x => and_congr_right fun hx => ?_
      simp only [Bool.and_eq_true, decide_eq_true_eq]
      exact and_congr_right fun hop => by rw [hreturns x hx hop]
    rw [needsExit, needsExit, hends, fallsThrough_marked h, entryLabel, entryLabel, hstarts, hentry]
  refine ⟨out', hout', ?_⟩
  rw [hlines', hlines, hneeds, prologue_congr hlike]
  simp only [bare_append, hbare]

end Lowering.Mips

/-! ### Compiling -/

open Lowering (Frame Functions)
open Lowering.Mips (complete_of_lower lower_marked)

/-- Words run to their end with this status and output. -/
def Machine.Halts (words : Array UInt32) (status : Int32) (output : List UInt8) : Prop :=
  ∃ fuel m, Machine.runLimited fuel 0 (Machine.ofWords words) = (m, .halted) ∧
    m.exitCode = status ∧ m.output.toList = output

theorem Machine.Halts.of_goes {words : Array UInt32} {n : Nat} {m : Machine}
    (h : (Machine.ofWords words).Goes n m) (hm : m.halted = true) :
    Halts words m.exitCode m.output.toList :=
  ⟨n, m, h.run hm (Nat.le_refl n), rfl, rfl⟩

theorem depth_placed (list : List Instruction) (symbols : List Symbol) {s : Settings}
    (hs : s.validate = .ok ()) (hdepth : s.stackDepth.toInt < 2 ^ 60) :
    0 ≤ (Compilation.placed list symbols s).1.maxDepth.toInt ∧
      (Compilation.placed list symbols s).1.maxDepth.toInt < 2 ^ 60 := by
  simp only [Compilation.placed]
  split
  · exact ⟨Frame.validate_depth hs, hdepth⟩
  · exact Frame.estimate_range _

section Compiling

variable {code : List UInt8} {f : Format} {list : List Instruction} {s : Settings}
  {out : Lowering.Mips.Output} {image : Assembly.Image} {depth : Int64} {g : Symbol}
  {fs : Functions}

/-- Nothing is missing in the listing of a program with symbols, whatever depth it is given. -/
theorem complete_of_placed (hdecode : Code.decode code = .ok (f, list)) (symbols : List Symbol)
    (hs : s.validate = .ok ()) (hdepth : s.stackDepth.toInt < 2 ^ 60)
    (hrange : 0 ≤ depth.toInt ∧ depth.toInt < 2 ^ 60)
    (hlower : Lowering.Mips.lower
      ⟨(Compilation.placed list symbols s).1.instructions, depth⟩ s = .ok out) :
    Complete out.lines := by
  obtain ⟨L, D, S, hf⟩ := shape_of_lower (p := ⟨_, depth⟩) hs hdepth hrange hlower
  refine (complete_of_lower hf (fun ins hins => ?_) hlower).1
  exact (Symbol.mem_place hins).imp_right (Code.width_pos_of_decode hdecode ins)

/-- **What one more visible name compiles to.**  If its marker cuts no return off, these are the
words of the program without it, in frames of the size that goes with the name. -/
theorem compile_marked (before after : List Symbol) (htarget : s.target = mipsTarget)
    (hs : s.validate = .ok ()) (hdepth : s.stackDepth.toInt < 2 ^ 60)
    (hname : s.entryNames.contains g.name = false) (hdecode : Code.decode code = .ok (f, list))
    {p p' : Program} (hp : (Compilation.placed list (before ++ after) s).1.instructions =
      p.instructions) (hp' : (Compilation.placed list (before ++ g :: after) s).1 = p')
    (hrange : 0 ≤ p.maxDepth.toInt ∧ p.maxDepth.toInt < 2 ^ 60)
    (hfs : Functions.ofList p.instructions s.features.implicitEntry = .ok fs)
    (hcuts : ∀ n ∈ offsets list, n.toUInt32 = g.address → ¬fs.Cuts p.instructions n)
    (hsize : (Frame.ofProgram p' s).size = (Frame.ofProgram p s).size)
    (hlower : Lowering.Mips.lower p s = .ok out)
    (himage : Assembly.assemble s.features.laElide (out.lines.map Line.render) = .ok image) :
    ∃ c image', compile code (before ++ g :: after) s = .ok c ∧ c.image = some image' ∧
      image'.words = image.words := by
  have hmarked := Symbol.marked_place list before after hname
  rw [show (Symbol.place list (before ++ after) s.entryNames).instructions = p.instructions from hp]
    at hmarked
  subst hp'
  -- the listing only gets names and remarks
  obtain ⟨out', hlower', hbare⟩ :=
    lower_marked hsize hmarked hfs (fun n hn => hcuts n hn.1 hn.2) hlower
  -- so it is assembled to the same words
  have hcomplete : Complete out.lines :=
    complete_of_placed hdecode (before ++ after) hs hdepth hrange (by rw [hp]; exact hlower)
  have hcomplete' : Complete out'.lines :=
    complete_of_placed hdecode _ hs hdepth (depth_placed _ _ hs hdepth) hlower'
  obtain ⟨image', himage', hwords⟩ := assemble_of_bare hcomplete hcomplete' hbare.symm himage
  obtain ⟨c, hc, hcimage⟩ := compile_of_phases _ htarget hs hdecode hlower' himage'
  exact ⟨c, image', hc, hcimage, hwords⟩

end Compiling

/-- **One more visible name leaves the code as it is.**  Let a code section be compiled with some
symbols, and let one more symbol be given that is no entry.  Unless its marker cuts a return off
from the entry function, or the depth that is then found changes the size of frames, the code
section is compiled with that symbol as well, to the same words; so it halts as before, with the
same status and the same output. -/
theorem compile_visible {code : List UInt8} {s : Settings} {before after : List Symbol} {g : Symbol}
    {c : Compilation} {fs : Functions} (htarget : s.target = mipsTarget)
    (hdepth : s.stackDepth.toInt < 2 ^ 60) (hname : s.entryNames.contains g.name = false)
    (hc : compile code (before ++ after) s = .ok c)
    (hfs : Functions.ofList c.program.instructions s.features.implicitEntry = .ok fs)
    (hcuts : ∀ n ∈ offsets c.decoded, n.toUInt32 = g.address →
      ¬fs.Cuts c.program.instructions n)
    (hsize : (Frame.ofProgram (Compilation.placed c.decoded (before ++ g :: after) s).1 s).size =
      c.lowered.frame.size) :
    ∃ c' image image', compile code (before ++ g :: after) s = .ok c' ∧ c.image = some image ∧
      c'.image = some image' ∧ image'.words = image.words ∧
      ∀ status output, Machine.Halts image.words status output →
        Machine.Halts image'.words status output := by
  obtain ⟨hs, hdecode, hprogram, out, image, hlowered, himage, hlower, hassemble⟩ :=
    compile_parts htarget hc
  rw [hlowered, show (Lowered.mips out).frame = out.frame from rfl,
    Lowering.Mips.frame_of_lower hlower] at hsize
  have hrange := depth_placed c.decoded (before ++ after) hs hdepth
  rw [← hprogram] at hrange
  obtain ⟨c', image', hc', himage', hwords⟩ := compile_marked before after htarget hs hdepth
    hname hdecode (by rw [hprogram]) rfl hrange hfs hcuts hsize hlower hassemble
  exact ⟨c', image, image', hc', himage, himage', hwords, fun status output h => hwords ▸ h⟩

/-! ### A name inside the entry function -/

section Samples

variable {code : List UInt8} {f : Format} {list : List Instruction} {symbols : List Symbol}
  {fs : Functions}

open Lowering.Mips (Context Progress draft operation lower lower_of_parts)

/-- An instruction that has lines, but not many. -/
def Short (c : Context) (x : Instruction × Nat) : Prop :=
  ∃ ls, draft c x.2 x.1 = .ok ls ∧ ls.length ≤ 100

theorem short_jump {c : Context} {ins : Instruction} (offset : Nat) (hop : ins.op = .jmp)
    (h : c.functions.startsAt ins.target = true) : Short c (ins, offset) := by
  refine ⟨[.place offset ins, .jump (.start ins.target.toNat)], ?_, by simp⟩
  simp only [draft, operation, hop, Lowering.Mips.jump, Lowering.Mips.targetLabel, if_pos h]
  rfl

theorem short_return (c : Context) (offset : Nat) : Short c (⟨.ret, [], []⟩, offset) := by
  simp only [Short, draft, operation]
  split
  all_goals exact ⟨_, rfl, Nat.le_of_ble_eq_true rfl⟩

theorem written_short {c : Context} {xs : List (Instruction × Nat)} (h : ∀ x ∈ xs, Short c x)
    (p : Progress) :
    ∃ q, xs.foldlM (fun w x => Progress.add c w x.1 x.2) p = .ok q ∧
      q.lines.toList.length ≤ p.lines.toList.length + 100 * xs.length := by
  induction xs generalizing p with
  | nil => exact ⟨p, rfl, Nat.le_refl _⟩
  | cons x xs ih =>
      obtain ⟨hx, h⟩ := List.forall_mem_cons.1 h
      have hadd : ∃ r, p.add c x.1 x.2 = .ok r ∧
          r.lines.toList.length ≤ p.lines.toList.length + 100 := by
        rcases Lowering.kind_cases x.1 with hop | hop | ⟨n, hop⟩ | hordinary
        · simp only [Progress.add, hop]
          refine ⟨_, rfl, ?_⟩
          rw [Array.toList_push, List.length_append, List.length_singleton]
          omega
        · have hdeclare : (Lowering.Mips.declare p.names x.1.symbol).1.length ≤ 2 := by
            unfold Lowering.Mips.declare
            split
            · simp
            · split <;> simp
          simp only [Progress.add, hop]
          refine ⟨_, rfl, ?_⟩
          rw [Array.toList_appendList, List.length_append]
          omega
        · simp only [Progress.add, hop]
          refine ⟨_, rfl, ?_⟩
          rw [Array.toList_push, List.length_append, List.length_singleton]
          omega
        · obtain ⟨ls, hls, hlength⟩ := hx
          rw [Progress.add_eq hordinary, hls]
          refine ⟨_, rfl, ?_⟩
          rw [Array.toList_appendList, List.length_append]
          omega
      obtain ⟨r, hr, hle⟩ := hadd
      obtain ⟨q, hq, hle'⟩ := ih h r
      refine ⟨q, foldlM_cons_ok_iff.2 ⟨r, hr, hq⟩, ?_⟩
      rw [List.length_cons]
      omega

/-- A short program whose instructions have lines has a listing, and not a long one. -/
theorem lower_short {p : Program} (hcheck : (Frame.ofProgram p {}).check = .ok ())
    (hfs : Functions.ofList p.instructions true = .ok fs)
    (hdrafts : ∀ x ∈ p.instructions.zip (offsets p.instructions),
      Short ⟨Frame.ofProgram p {}, fs⟩ x)
    (hshort : p.instructions.length ≤ 100) :
    ∃ out, lower p {} = .ok out ∧ out.lines.length < 16384 := by
  obtain ⟨w, hw, hlength⟩ := written_short hdrafts {}
  obtain ⟨out, hlower, -, hlines⟩ := lower_of_parts hcheck hfs hw
  refine ⟨out, hlower, ?_⟩
  rw [hlines, List.length_append, List.length_append]
  rw [List.length_zip, Instruction.length_offsets, Nat.min_self] at hlength
  show 9 + _ + _ < _
  have hexit : (if Lowering.Mips.needsExit fs p.instructions then Lowering.Mips.epilogue
      else []).length ≤ 9 := by
    split <;> decide
  simp only [List.length_nil] at hlength
  omega

/-- **A short program whose instructions have lines is compiled.** -/
theorem compile_of_drafts (hdecode : Code.decode code = .ok (f, list)) {p : Program}
    (hp : (Compilation.placed list symbols {}).1 = p)
    (hcheck : (Frame.ofProgram p {}).check = .ok ())
    (hfs : Functions.ofList p.instructions true = .ok fs)
    (hdrafts : ∀ x ∈ p.instructions.zip (offsets p.instructions),
      Short ⟨Frame.ofProgram p {}, fs⟩ x)
    (hshort : p.instructions.length ≤ 100) :
    ∃ c out image, compile code symbols {} = .ok c ∧ c.decoded = list ∧ c.program = p ∧
      c.lowered = .mips out ∧ c.image = some image ∧ lower p {} = .ok out ∧
      Assembly.assemble true (out.lines.map Line.render) = .ok image ∧
      image.words.size < 2 ^ 26 := by
  obtain ⟨out, hlower, hlines⟩ := lower_short hcheck hfs hdrafts hshort
  rw [← hp] at hlower
  have hrange := depth_placed list symbols (s := {}) (by decide) (by decide)
  have hcomplete : Complete out.lines :=
    complete_of_placed hdecode symbols (by decide) (by decide) hrange hlower
  obtain ⟨image, himage, hwords⟩ := hcomplete.assembles hlines true
  obtain ⟨c, hc, hcimage⟩ := compile_of_phases symbols rfl (by decide) hdecode hlower himage
  obtain ⟨-, hdecode', hprogram, out', -, hlowered, -, hlower', -⟩ := compile_parts rfl hc
  obtain ⟨-, hdecoded⟩ := Prod.mk.inj (Except.ok.inj (hdecode'.symm.trans hdecode))
  rw [hdecoded, hp] at hprogram
  rw [hp] at hlower
  rw [hprogram] at hlower'
  obtain rfl := Except.ok.inj (hlower.symm.trans hlower')
  exact ⟨c, out, image, hc, hdecoded, hprogram, hlowered, hcimage, hlower, himage, by omega⟩

end Samples

/-- A program with the depth that is found for it. -/
theorem placed_of_deepest {list placed : List Instruction} {symbols : List Symbol} {d : Nat}
    (hplace : (Symbol.place list symbols ({} : Settings).entryNames).instructions = placed)
    (hdepth : Instruction.estimateDepth placed = d) :
    (Compilation.placed list symbols {}).1 = ⟨placed, Int64.ofNat d⟩ := by
  rw [← hplace] at hdepth ⊢
  rw [← hdepth]
  rfl

/-- A name for the second instruction of `printSeven`. -/
def printName : Symbol := ⟨text "f", 0, 1, true, 5⟩

theorem placed_printSeven :
    (Compilation.placed printSeven [] {}).1 = ⟨printSeven, 1⟩ ∧
      (Compilation.placed printSeven [printName] {}).1 =
        ⟨[{ op := .iconst, operands := [7] }, { op := .global, symbol := text "f" },
          { op := .print }], 1⟩ :=
  ⟨placed_of_deepest rfl (Flow.estimateDepth_of_within 20 (by decide +kernel)),
    placed_of_deepest rfl (Flow.estimateDepth_of_within 20 (by decide +kernel))⟩

theorem compile_visible_printSeven :
    let code := text "KATS" ++ [2, 0, 0, 0, 1, 7, 0, 0, 0, 5]
    ∃ c fs c' image image', compile code [] {} = .ok c ∧
      Functions.ofList c.program.instructions true = .ok fs ∧ fs.entry < 5 ∧
      (Frame.ofProgram (Compilation.placed c.decoded [printName] {}).1 {}).size =
        c.lowered.frame.size ∧
      compile code [printName] {} = .ok c' ∧ c.image = some image ∧ c'.image = some image' ∧
      image'.words = image.words ∧ Machine.Halts image'.words 0 (text "7\n") := by
  intro code
  have hdecode : Code.decode code = .ok (.kats, printSeven) := by decide
  obtain ⟨hplaced, hplaced'⟩ := placed_printSeven
  obtain ⟨fs, hfs, hentry⟩ : ∃ fs, Functions.ofList printSeven true = .ok fs ∧ fs.entry = 0 :=
    ⟨_, rfl, rfl⟩
  obtain ⟨c, out, image, hc, hdecoded, hprogram, hlowered, hcimage, hlower, himage, hwords⟩ :=
    compile_of_drafts hdecode hplaced (by decide) hfs
      (List.forall_mem_cons.2 ⟨⟨_, rfl, by decide⟩,
        List.forall_mem_singleton.2 ⟨_, rfl, by decide⟩⟩) (by decide)
  have hfs' : Functions.ofList c.program.instructions true = .ok fs := by rw [hprogram, hfs]
  have hsize : (Frame.ofProgram (Compilation.placed c.decoded [printName] {}).1 {}).size =
      c.lowered.frame.size := by
    rw [hdecoded, hplaced', hlowered, show (Lowered.mips out).frame = out.frame from rfl,
      Lowering.Mips.frame_of_lower hlower]
    decide
  have hcuts : ∀ n ∈ offsets c.decoded, n.toUInt32 = printName.address →
      ¬fs.Cuts c.program.instructions n := by
    -- nothing returns
    rintro n - - ⟨-, x, hx, hop, -⟩
    rw [hprogram] at hx
    revert hop
    revert x
    decide
  obtain ⟨c', image₁, image', hc', hcimage₁, himage', hsame, hhalts⟩ :=
    compile_visible rfl (by decide) (by decide) (show compile code ([] ++ []) {} = .ok c from hc)
      hfs' hcuts hsize
  obtain rfl := Option.some.inj (hcimage.symm.trans hcimage₁)
  refine ⟨c, fs, c', image, image', hc, hfs', by omega, hsize, hc', hcimage, himage', hsame,
    hhalts 0 _ ?_⟩
  rw [← hplaced] at hlower
  obtain ⟨n, m, hgoes, hhalted, hstatus, houtput⟩ := PlainMachine.lowered_correct (s := {})
    (by decide) rfl rfl rfl rfl (by decide) hlower himage hwords
    (show PlainMachine.run printSeven 10 {} = some (0, [7]) by decide +kernel)
  rw [← hstatus, show text "7\n" = m.output.toList by rw [houtput]; decide]
  exact Machine.Halts.of_goes hgoes hhalted

end StackCompiler
