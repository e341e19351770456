/-
**The lines of a program.**

A listing is a prologue, then the lines of every instruction in order, then an epilogue if the
program can be left by running off its end.  Assembled, the lines of every instruction have a place
of their own, and the label of the instruction has that place as its address.

* `Lowering.Mips.ordinary_lines` — **the lines of a program without markers are the lines of its
  instructions**, one behind the other.
-/

import StackCompiler.Lowering.Mips
import StackCompiler.Proofs.FrameShape
import StackCompiler.Proofs.StraightLines

namespace StackCompiler

open Instruction (offsets target totalSize)
open UInt32 (ofNat)
open Listing.Core (get_set_other get_set_same memory_set output_set)

/-! ### Places of parts -/

/-- **Every part of a list of lines has a place**, where the one before it ends. -/
theorem Assembly.laid_flatten {elide : Bool} {image : Image} {parts : List (List Text)} {k j : Nat}
    (h : Laid elide image k parts.flatten j) :
    ∃ pos : Nat → Nat, pos 0 = k ∧ pos parts.length = j ∧
      ∀ i part, parts[i]? = some part → Laid elide image (pos i) part (pos (i + 1)) := by
  induction parts generalizing k with
  | nil =>
      obtain rfl : k = j := h
      exact ⟨fun _ => k, rfl, rfl, fun i part hi => by simp at hi⟩
  | cons part parts ih =>
      rw [List.flatten_cons, laid_append] at h
      obtain ⟨i, hpart, hrest⟩ := h
      obtain ⟨pos, hstart, hend, hpos⟩ := ih hrest
      refine ⟨fun n => if n = 0 then k else pos (n - 1), rfl, ?_, ?_⟩
      · simpa using hend
      · intro n part' hn
        cases n with
        | zero =>
            obtain rfl : part = part' := by simpa using hn
            simpa [hstart] using hpart
        | succ n => simpa using hpos n part' (by simpa using hn)

/-! ### The parts of a division into functions -/

namespace Lowering.Functions

/-- The index that is kept for an offset is the first one of an instruction there. -/
theorem boundariesOf_getElem? (located : List (Instruction × Nat)) (n : Nat) :
    (boundariesOf located)[n]? = located.findIdx? fun x => !x.1.op.isMarker && x.2 == n := by
  rw [boundariesOf, insertIfNew_fold (fun x : Instruction × Nat => x.1.op.isMarker) Prod.snd]
  simp

theorem contains_boundariesOf (located : List (Instruction × Nat)) (n : Nat) :
    (boundariesOf located).contains n = located.any fun x => !x.1.op.isMarker && x.2 == n := by
  rw [Std.HashMap.contains_eq_isSome_getElem?, boundariesOf_getElem?, List.findIdx?_isSome]

variable {list : List Instruction} {implicitEntry : Bool} {fs : Functions}

/-- **The parts of a division into functions.** -/
theorem ofList_ok (h : ofList list implicitEntry = .ok fs) :
    let located := list.zip (offsets list)
    let starts := startsIn located
    badCall? (boundariesOf located) located = none ∧
      (entryMarker? located).or (if implicitEntry then some 0 else none) = some fs.entry ∧
      fs.functions = (starts.zip (starts.tail ++ [totalSize list])).map
        (fun r => between (offsets list) fs.entry r.1 r.2) ∧
      fs.boundaries = boundariesOf located := by
  unfold ofList at h
  simp only at h
  split at h
  · cases h
  next hcalls =>
  split at h
  · cases h
  next entry hentry =>
  obtain rfl := Except.ok.inj h
  exact ⟨hcalls, hentry, rfl, rfl⟩

theorem boundaries_of_ofList (h : ofList list implicitEntry = .ok fs) :
    fs.boundaries = boundariesOf (list.zip (offsets list)) := (ofList_ok h).2.2.2

theorem startsAt_of_any (hfs : ofList list implicitEntry = .ok fs) {n : Nat}
    (h : (list.zip (offsets list)).any (fun x => !x.1.op.isMarker && x.2 == n)) :
    fs.startsAt n = true := by
  show fs.boundaries.contains n = true
  rw [boundaries_of_ofList hfs, contains_boundariesOf, h]

theorem badCall?_eq_none {located : List (Instruction × Nat)}
    (h : ∀ x ∈ located, x.1.op = .invoke →
      located.any fun y => !y.1.op.isMarker && y.2 == x.1.half 0) :
    badCall? (boundariesOf located) located = none := by
  rw [badCall?, List.findSome?_eq_none_iff]
  intro x hx
  refine if_neg ?_
  rintro ⟨hop, hbad⟩
  have hboundary : isBoundary (boundariesOf located) (x.1.half 0 : Nat) = true :=
    (contains_boundariesOf located (x.1.half 0)).trans (h x hx hop)
  rw [target, if_pos hop, hboundary] at hbad
  cases hbad

end Lowering.Functions

namespace Lowering.Mips

open Listing

/-! ### The parts of a listing -/

/-- Whether the lines of a program end with an epilogue. -/
def needsExit (fs : Functions) (list : List Instruction) : Bool :=
  !entryReturns fs (list.zip (offsets list)) || entryLabel fs == .exit || fallsThrough list

/-- **The parts of a listing.** -/
theorem lower_ok {p : Program} {s : Settings} {out : Output} (h : lower p s = .ok out) :
    ∃ fs w, (Frame.ofProgram p s).check = .ok () ∧
      Functions.ofList p.instructions s.features.implicitEntry = .ok fs ∧
      (p.instructions.zip (offsets p.instructions)).foldlM
        (fun w x => Progress.add ⟨Frame.ofProgram p s, fs⟩ w x.1 x.2) {} = .ok w ∧
      out.frame = Frame.ofProgram p s ∧
      out.lines = prologue ⟨Frame.ofProgram p s, fs⟩ s.stackTop ++ w.lines.toList ++
        (if needsExit fs p.instructions then epilogue else []) := by
  obtain ⟨⟨⟩, hcheck, h⟩ := bind_ok_iff.1 h
  obtain ⟨fs, hfs, h⟩ := bind_ok_iff.1 h
  obtain ⟨w, hw, rfl⟩ := bind_pure_ok_iff.1 h
  exact ⟨fs, w, hcheck, hfs, hw, rfl, rfl⟩

theorem frame_of_lower {p : Program} {s : Settings} {out : Output} (h : lower p s = .ok out) :
    out.frame = Frame.ofProgram p s := by
  obtain ⟨-, -, -, -, -, hframe, -⟩ := lower_ok h
  exact hframe

variable {fs : Functions}

theorem lower_of_parts {p : Program} {s : Settings} {w : Progress}
    (hcheck : (Frame.ofProgram p s).check = .ok ())
    (hfs : Functions.ofList p.instructions s.features.implicitEntry = .ok fs)
    (hw : (p.instructions.zip (offsets p.instructions)).foldlM
      (fun w x => Progress.add ⟨Frame.ofProgram p s, fs⟩ w x.1 x.2) {} = .ok w) :
    ∃ out, lower p s = .ok out ∧ out.frame = Frame.ofProgram p s ∧
      out.lines = prologue ⟨Frame.ofProgram p s, fs⟩ s.stackTop ++ w.lines.toList ++
        (if needsExit fs p.instructions then epilogue else []) :=
  ⟨_, bind_ok_iff.2 ⟨(), hcheck, bind_ok_iff.2 ⟨fs, hfs, bind_ok_iff.2 ⟨w, hw, rfl⟩⟩⟩, rfl, rfl⟩

/-- An instruction that is neither a marker nor unknown. -/
def Ordinary (ins : Instruction) : Prop :=
  ins.op.isMarker = false ∧ ∀ n, ins.op ≠ .unknown n

variable {ins : Instruction} {offset : Nat} {q : Progress} {xs : List (Instruction × Nat)}

theorem ordinary_of_op {o : Op} (hop : ins.op = o) (ho : o.width ≠ 0 := by decide) :
    Ordinary ins := by
  subst hop
  constructor
  · rw [Bool.eq_false_iff]
    exact fun hmarker => ho (Instruction.width_of_isMarker hmarker)
  · intro n hop
    rw [hop] at ho
    exact ho rfl

/-- An ordinary instruction gets the lines that are drafted for it. -/
theorem Progress.add_eq {c : Context} {p : Progress} (hins : Ordinary ins) : p.add c ins offset =
      match draft c offset ins with
      | .ok ls => .ok { p with lines := p.lines ++ ls }
      | .error cause => .error (.instruction offset ins cause) := by
  obtain ⟨hmarker, hunknown⟩ := hins
  rw [Progress.add]
  split
  iterate 2 · next hop => rw [hop] at hmarker; cases hmarker
  · next n hop => exact absurd hop (hunknown n)
  · rfl

theorem Progress.add_ordinary {c : Context} {p : Progress} (hins : Ordinary ins)
    (h : p.add c ins offset = .ok q) :
    ∃ ls, draft c offset ins = .ok ls ∧ q.lines.toList = p.lines.toList ++ ls := by
  rw [Progress.add_eq hins] at h
  split at h
  · next ls hls =>
    obtain rfl := Except.ok.inj h
    exact ⟨ls, hls, by simp⟩
  · cases h

/-- Whatever is added, the lines so far stay. -/
theorem Progress.add_keeps {c : Context} {p : Progress} (h : p.add c ins offset = .ok q) :
    ∃ ls, q.lines.toList = p.lines.toList ++ ls := by
  rw [Progress.add] at h
  split at h
  · obtain rfl := Except.ok.inj h
    exact ⟨_, Array.toList_push⟩
  · obtain rfl := Except.ok.inj h
    exact ⟨_, Array.toList_appendList⟩
  · obtain rfl := Except.ok.inj h
    exact ⟨_, Array.toList_push⟩
  · split at h
    · obtain rfl := Except.ok.inj h
      exact ⟨_, Array.toList_appendList⟩
    · cases h

theorem written_keeps {c : Context} {p : Progress}
    (h : xs.foldlM (fun w x => Progress.add c w x.1 x.2) p = .ok q) :
    ∃ ls, q.lines.toList = p.lines.toList ++ ls := by
  refine foldlM_keeps (P := fun w => ∃ ls, w.lines.toList = p.lines.toList ++ ls) ?_ ⟨[], by simp⟩ h
  rintro w w' x ⟨ls, hls⟩ hw
  obtain ⟨ls', hls'⟩ := Progress.add_keeps hw
  exact ⟨ls ++ ls', by rw [hls', hls, List.append_assoc]⟩

/-- The lines of an ordinary instruction stand among those that were written. -/
theorem written_instruction {c : Context} {p : Progress}
    (h : xs.foldlM (fun w x => Progress.add c w x.1 x.2) p = .ok q) (hmem : (ins, offset) ∈ xs)
    (hins : Ordinary ins) :
    ∃ ls before behind, draft c offset ins = .ok ls ∧ q.lines.toList = before ++ ls ++ behind := by
  -- the walk is interrupted before the instruction; what comes later only adds lines
  obtain ⟨as, bs, rfl⟩ := List.append_of_mem hmem
  obtain ⟨r, -, h⟩ := foldlM_append_ok_iff.1 h
  obtain ⟨r', hr', hq⟩ := foldlM_cons_ok_iff.1 h
  obtain ⟨ls, hls, hlines⟩ := Progress.add_ordinary hins hr'
  obtain ⟨behind, hbehind⟩ := written_keeps hq
  exact ⟨ls, r.lines.toList, behind, hls, by rw [hbehind, hlines]⟩

/-- The lines of ordinary instructions, part by part. -/
theorem written_ordinary {c : Context} {p : Progress}
    (h : xs.foldlM (fun w x => Progress.add c w x.1 x.2) p = .ok q) (hxs : ∀ x ∈ xs, Ordinary x.1) :
    ∃ parts : List (List Line), parts.length = xs.length ∧
      (∀ (i : Nat) (x : Instruction × Nat), xs[i]? = some x →
        ∃ ls, parts[i]? = some ls ∧ draft c x.2 x.1 = .ok ls) ∧
      q.lines.toList = p.lines.toList ++ parts.flatten := by
  induction xs generalizing p with
  | nil =>
      obtain rfl := foldlM_nil_ok_iff.1 h
      exact ⟨[], rfl, by simp, by simp⟩
  | cons x xs ih =>
      obtain ⟨r, hr, hq⟩ := foldlM_cons_ok_iff.1 h
      obtain ⟨hx, hxs⟩ := List.forall_mem_cons.1 hxs
      obtain ⟨ls, hls, hlines⟩ := Progress.add_ordinary hx hr
      obtain ⟨parts, hlen, hparts, hflat⟩ := ih hq hxs
      refine ⟨ls :: parts, by simp [hlen], ?_, by rw [hflat, hlines]; simp⟩
      intro i y hi
      cases i with
      | zero =>
          obtain rfl : x = y := by simpa using hi
          exact ⟨ls, rfl, hls⟩
      | succ i => exact hparts i y (by simpa using hi)

theorem written_of_drafts {c : Context} {parts : List (List Line)}
    (h : List.Forall₂ (fun x ls => draft c x.2 x.1 = .ok ls) xs parts)
    (hxs : ∀ x ∈ xs, Ordinary x.1) (p : Progress) :
    ∃ q, xs.foldlM (fun w x => Progress.add c w x.1 x.2) p = .ok q ∧
      q.lines.toList = p.lines.toList ++ parts.flatten := by
  induction h generalizing p with
  | nil => exact ⟨p, rfl, by simp⟩
  | @cons x ls xs parts hdraft hdrafts ih =>
      obtain ⟨hx, hxs⟩ := List.forall_mem_cons.1 hxs
      obtain ⟨q, hq, hlines⟩ := ih hxs { p with lines := p.lines ++ ls }
      refine ⟨q, foldlM_cons_ok_iff.2 ⟨_, ?_, hq⟩, ?_⟩
      · rw [Progress.add_eq hx, hdraft]
      · rw [hlines]
        simp

/-- **A program whose instructions can be drafted is lowered.** -/
theorem lower_of_drafts {p : Program} {s : Settings} {parts : List (List Line)}
    (hcheck : (Frame.ofProgram p s).check = .ok ())
    (hfs : Functions.ofList p.instructions s.features.implicitEntry = .ok fs)
    (hp : ∀ ins ∈ p.instructions, Ordinary ins)
    (hdrafts : List.Forall₂ (fun x ls => draft ⟨Frame.ofProgram p s, fs⟩ x.2 x.1 = .ok ls)
      (p.instructions.zip (offsets p.instructions)) parts) :
    ∃ out, lower p s = .ok out ∧ out.frame = Frame.ofProgram p s ∧
      out.lines = prologue ⟨Frame.ofProgram p s, fs⟩ s.stackTop ++ parts.flatten ++
        (if needsExit fs p.instructions then epilogue else []) := by
  obtain ⟨w, hw, hlines⟩ := written_of_drafts hdrafts
    (fun x hx => hp x.1 (List.of_mem_zip hx).1) {}
  rw [← show w.lines.toList = parts.flatten from hlines]
  exact lower_of_parts hcheck hfs hw

/-! ### Assembled listings -/

variable {p : Program} {s : Settings} {out : Output} {elide : Bool} {image : Assembly.Image}

section

variable (hlower : lower p s = .ok out)
  (himage : Assembly.assemble elide (out.lines.map Line.render) = .ok image)

include hlower himage

/-- **The lines of an instruction stand in the listing**, and assembled they have a place. -/
theorem instruction_lines (hmem : (ins, offset) ∈ p.instructions.zip (offsets p.instructions))
    (hins : Ordinary ins) :
    ∃ fs ls k j, Functions.ofList p.instructions s.features.implicitEntry = .ok fs ∧
      draft ⟨Frame.ofProgram p s, fs⟩ offset ins = .ok ls ∧
      Assembly.Laid elide image k (ls.map Line.render) j ∧ j ≤ image.words.size := by
  obtain ⟨fs, w, -, hfs, hw, -, hlines⟩ := lower_ok hlower
  obtain ⟨ls, before, behind, hls, hsplit⟩ := written_instruction hw hmem hins
  have hlaid := Assembly.assemble_laid himage
  rw [hlines, hsplit] at hlaid
  simp only [List.map_append, Assembly.laid_append] at hlaid
  obtain ⟨i, ⟨-, -, j, ⟨k, -, hls'⟩, hbehind⟩, hepilogue⟩ := hlaid
  exact ⟨fs, ls, k, j, hfs, hls, hls',
    Nat.le_trans (Assembly.laid_le hbehind) (Assembly.laid_le hepilogue)⟩

theorem start_known (hmem : (ins, offset) ∈ p.instructions.zip (offsets p.instructions))
    (hins : Ordinary ins) : ∃ a, image.labels[(Label.start offset).render]? = some a := by
  obtain ⟨fs, ls, k, j, -, hdraft, hlaid, -⟩ := instruction_lines hlower himage hmem hins
  obtain ⟨ls', -, rfl⟩ := map_ok_iff.1 hdraft
  exact ⟨_, (laid_place hlaid).1⟩

/-- **The lines of a program without markers are the lines of its instructions**, one behind the
other, between the prologue and the epilogue. -/
theorem ordinary_lines (hp : ∀ ins ∈ p.instructions, Ordinary ins) :
    ∃ fs, Functions.ofList p.instructions s.features.implicitEntry = .ok fs ∧
      ∃ pos : Nat → Nat, Assembly.Laid elide image 0
          ((prologue ⟨Frame.ofProgram p s, fs⟩ s.stackTop).map Line.render) (pos 0) ∧
        (∀ i ins offset, p.instructions[i]? = some ins →
          (offsets p.instructions)[i]? = some offset →
          ∃ ls, draft ⟨Frame.ofProgram p s, fs⟩ offset ins = .ok ls ∧
            Assembly.Laid elide image (pos i) (ls.map Line.render) (pos (i + 1))) ∧
        (needsExit fs p.instructions → Assembly.Laid elide image (pos p.instructions.length)
          (epilogue.map Line.render) image.words.size) := by
  obtain ⟨fs, w, -, hfs, hw, -, hlines⟩ := lower_ok hlower
  have hordinary : ∀ x ∈ p.instructions.zip (offsets p.instructions), Ordinary x.1 :=
    fun x hx => hp x.1 (List.of_mem_zip hx).1
  obtain ⟨parts, hlen, hparts, hflat⟩ := written_ordinary hw hordinary
  have hlaid := Assembly.assemble_laid himage
  rw [hlines, hflat] at hlaid
  simp only [List.map_append, Assembly.laid_append] at hlaid
  obtain ⟨b, ⟨a, hprologue, hbody⟩, hepilogue⟩ := hlaid
  have hbody' : Assembly.Laid elide image a (parts.map (List.map Line.render)).flatten b := by
    obtain ⟨a', ha', hbody⟩ := hbody
    obtain rfl : a = a' := ha'
    rwa [List.map_flatten] at hbody
  obtain ⟨pos, hstart, hend, hpos⟩ := Assembly.laid_flatten hbody'
  have hlength : (parts.map (List.map Line.render)).length = p.instructions.length := by
    simp [hlen]
  refine ⟨fs, hfs, pos, by rwa [hstart], ?_, ?_⟩
  · intro i ins offset hins hoffset
    obtain ⟨ls, hls, hdraft⟩ := hparts i (ins, offset) (List.getElem?_zip_eq_some.2 ⟨hins, hoffset⟩)
    exact ⟨ls, hdraft, hpos i _ (by rw [List.getElem?_map, hls]; rfl)⟩
  · intro hneeds
    rw [if_pos hneeds] at hepilogue
    rwa [← hlength, hend]

end

/-! ### What lowering refuses -/

/-- An instruction that names a target has lines only if an instruction starts there. -/
theorem targetLabel_lines {next : Label → Drafting Unit} {ls : List Line}
    (h : (targetLabel fs ins >>= next).lines = .ok ls) :
    (next (.start ins.target.toNat)).lines = .ok ls := by
  unfold targetLabel at h
  by_cases htarget : fs.startsAt ins.target
  · rwa [if_pos htarget, pure_bind] at h
  · rw [if_neg htarget] at h
    cases h

/-- An instruction that names a slot has lines only if the frame has that slot. -/
theorem slot_lines {f : Frame} {next : Int64 → Drafting Unit} {ls : List Line}
    (h : (slot f ins >>= next).lines = .ok ls) :
    Int64.ofNat (ins.half 0) < f.localSlots ∧ (next (Int64.ofNat (ins.half 0))).lines = .ok ls := by
  unfold slot at h
  by_cases hslot : f.localSlots ≤ Int64.ofNat (ins.half 0)
  · simp only [if_pos hslot] at h
    cases h
  · simp only [if_neg hslot, pure_bind] at h
    exact ⟨Int64.not_le.1 hslot, h⟩

/-! ### The operand stack -/

open Register (s0 s1)

/-- The lines that push a register, with the address of the cell in another one. -/
def pushLines (a r : Register) : List Line :=
  [.registers3 .addu a s0 s1, .access .sw r 0 a, .immediate .addiu s1 s1 4]

/-- A register that lines may use: not zero, and neither of the two that hold the operand stack. -/
def Free (r : Register) : Prop := (r ≠ 0 ∧ r < 32) ∧ r ≠ s0 ∧ r ≠ s1

instance (r : Register) : Decidable (Free r) := inferInstanceAs (Decidable ((_ ∧ _) ∧ _ ∧ _))

variable {c : Core} {B n : Nat}

/-- The top cell is loaded, and the stack is one cell shorter. -/
theorem popLines_run (labels : Assembly.Labels) {r : Register} (hr : Free r) (hB : B % 4 = 0)
    (hs0 : c.get s0 = ofNat B) (hs1 : c.get s1 = ofNat (4 * (n + 1))) :
    ∃ c', straight labels (popLines r) c = some c' ∧
      c'.get r = c.memory.loadWord (ofNat (B + 4 * n)) ∧
      c'.get s1 = ofNat (4 * n) ∧ (∀ r', r' ≠ r → r' ≠ s1 → c'.get r' = c.get r') ∧
      c'.memory = c.memory ∧ c'.output = c.output := by
  obtain ⟨hr, hrs0, hrs1⟩ := hr
  let c₁ := (c.set s1 (ofNat (4 * n))).set r (ofNat (B + 4 * n))
  refine ⟨c₁.set r (c.memory.loadWord (ofNat (B + 4 * n))), ?_, ?_, ?_, ?_, rfl, rfl⟩
  · rw [popLines, straight_displace (y := 4 * n) hs1 (by omega),
      straight_sum (x := B) (y := 4 * n) (by rw [get_set_other _ _ (by decide), hs0])
        (get_set_same _ _ (by decide)),
      straight_load (y := B + 4 * n) (get_set_same _ _ hr) (by omega) (by omega)]
    rfl
  · exact get_set_same _ _ hr
  · rw [get_set_other _ _ hrs1.symm, get_set_other _ _ hrs1.symm]
    exact get_set_same _ _ (by decide)
  · intro r' h h'
    rw [get_set_other _ _ h, get_set_other _ _ h, get_set_other _ _ h']

/-- A register becomes the top cell, and the stack is one cell longer. -/
theorem pushLines_run (labels : Assembly.Labels) {a r : Register} (ha : Free a) (har : r ≠ a)
    (hB : B % 4 = 0) (hs0 : c.get s0 = ofNat B) (hs1 : c.get s1 = ofNat (4 * n)) :
    ∃ c', straight labels (pushLines a r) c = some c' ∧
      c'.get s1 = ofNat (4 * (n + 1)) ∧ (∀ r', r' ≠ a → r' ≠ s1 → c'.get r' = c.get r') ∧
      c'.memory = c.memory.storeWord (ofNat (B + 4 * n)) (c.get r) ∧
      c'.output = c.output := by
  obtain ⟨ha, has0, has1⟩ := ha
  let c₁ := (c.set a (ofNat (B + 4 * n))).store (ofNat (B + 4 * n)) (c.get r)
  refine ⟨c₁.set s1 (ofNat (4 * (n + 1))), ?_, ?_, ?_, ?_, ?_⟩
  · rw [pushLines, straight_sum hs0 hs1,
      straight_store (y := B + 4 * n) (get_set_same _ _ ha) (by omega) (by omega),
      get_set_other _ _ har,
      straight_displace (y := 4 * (n + 1))
        (by rw [Core.get_store, get_set_other _ _ has1.symm, hs1]) (by omega)]
    rfl
  · exact get_set_same _ _ (by decide)
  · intro r' h h'
    rw [get_set_other _ _ h', Core.get_store, get_set_other _ _ h]
  · rw [memory_set, Core.memory_store, memory_set]
  · rw [output_set, Core.output_store, output_set]

/-! ### Entering a frame -/

open Register (fp)

/-- The registers of a frame that starts to be used. -/
theorem enterFrame_run (labels : Assembly.Labels) {f : Frame} {L G : Nat}
    (hbase : f.base.toInt = 16 + 4 * L) (hzero : c.get 0 = 0) (hfp : c.get fp = ofNat G) :
    ∃ c', straight labels (enterFrame f) c = some c' ∧
      c'.get s0 = ofNat (G + 16 + 4 * L) ∧ c'.get s1 = 0 ∧
      (∀ r, r ≠ s0 → r ≠ s1 → c'.get r = c.get r) ∧ c'.memory = c.memory ∧
      c'.output = c.output := by
  refine ⟨(c.set s0 (ofNat (G + 16 + 4 * L))).set s1 0, ?_, ?_, ?_, ?_, ?_, ?_⟩
  · rw [enterFrame, straight_displace (y := G + 16 + 4 * L) hfp (by rw [hbase]; omega),
      straight_move, get_set_other _ _ (by decide), Register.zero, hzero]
    rfl
  · rw [get_set_other _ _ (by decide), get_set_same _ _ (by decide)]
  · exact get_set_same _ _ (by decide)
  · intro r h₀ h₁
    rw [get_set_other _ _ h₁, get_set_other _ _ h₀]
  · rw [memory_set, memory_set]
  · rw [output_set, output_set]

theorem enterFrame_plain (f : Frame) : ∀ l ∈ enterFrame f, l.Plain :=
  List.forall_mem_cons.2 ⟨Line.plain_immediate .addiu (by decide) _, by decide⟩

end Lowering.Mips

end StackCompiler
