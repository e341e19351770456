/-
**Unknown instructions are inert.**

The listing of a program with unknown instructions has lines that do nothing, and it may have an
epilogue that would not be there otherwise: a program that ends with an unknown instruction can be
left by running off its end.  Neither decides whether the listing is assembled.  A line that does
nothing can stand anywhere, and such an epilogue has labels that nothing refers to.

So unknown instructions are inert, with one exception.  Behind the last byte of a program only an
unknown instruction can start.  A jump that goes there is accepted because of it; and if the program
itself starts there, its first jump goes to a label that is nowhere.

* `Lowering.Mips.unknown_inert` — **unknown instructions are inert**.
-/

import StackCompiler.Proofs.BranchTargets
import StackCompiler.Proofs.SiftedListings
import StackCompiler.Proofs.SmallPrograms

namespace StackCompiler

open Lowering.Functions (ne_end_of_startsAt ofList startsAt_of_any)
open Assembly (assemble)

/-! ### What a listing needs to be assembled -/

namespace Listing

open Assembly (Written Small Statement)

/-- A label of lowering is among the operands of a line only if the line uses it. -/
theorem Line.Legible.mem_uses {l : Line} (h : l.Legible) {w : Written} (hw : l.instruction = some w)
    {d : Label} (hd : d.isMade) (hmem : d.render ∈ w.operands) : d ∈ l.uses := by
  cases l with
  | code m os =>
      obtain rfl := Option.some.inj hw
      obtain ⟨o, ho, ht⟩ := List.mem_flatMap.1 hmem
      obtain ⟨l, rfl, heq⟩ := Operand.label_of_isIdentifier ht (Label.isIdentifier_render hd)
      obtain rfl := Label.render_inj hd (h _ ho) heq
      exact List.mem_filterMap.2 ⟨_, ho, rfl⟩
  | nothingFor ins =>
      obtain rfl := Option.some.inj hw
      cases hmem
  | _ => cases hw

/-- A label of lowering is a label of a line only if the line defines it. -/
theorem Line.Legible.mem_defines {l : Line} (h : l.Legible) {d : Label} (hd : d.isMade)
    (hmem : d.render ∈ l.labels) : d ∈ l.defines := by
  have hmade : ∀ d' : Label, d'.isMade → d.render ∈ [d'.render] → d ∈ [d'] := by
    intro d' hd' ht
    exact List.mem_singleton.2 (Label.render_inj hd hd' (List.mem_singleton.1 ht))
  cases l with
  | label l =>
      cases l with
      | named name =>
          have hname : d.render = name := by
            rw [Line.labels, namedLabels] at hmem
            split at hmem
            · cases hmem
            · exact List.mem_singleton.1 hmem
          exact absurd hname (h.2 d hd)
      | _ => exact hmade _ rfl hmem
  | place offset ins => exact hmade _ rfl hmem
  | _ => cases hmem

/-- A listing whose labels are distinct and whose instructions could be assembled somewhere. -/
structure Fitting (lines : List Line) : Prop where
  once : (lines.flatMap Line.labels).Nodup
  fits : ∀ l ∈ lines, ∀ w, l.instruction = some w → w.Fits (lines.flatMap Line.labels)

section Fitting

variable {lines lines' : List Line}

theorem labels_takenFrom (first : Nat) (lines : List Line) :
    (takenFrom first lines).flatMap Statement.labels = lines.flatMap Line.labels := by
  induction lines generalizing first with
  | nil => rfl
  | cons l lines ih => rw [takenFrom, List.flatMap_cons, List.flatMap_cons, ih]; rfl

theorem mem_takenFrom_of_mem {l : Line} (hl : l ∈ lines) (first : Nat) :
    ∃ n, l.taken n ∈ takenFrom first lines := by
  induction lines generalizing first with
  | nil => cases hl
  | cons l' lines ih =>
      rcases List.mem_cons.1 hl with rfl | hl
      · exact ⟨first, List.mem_cons_self⟩
      · obtain ⟨n, hn⟩ := ih hl (first + 1)
        exact ⟨n, List.mem_cons_of_mem _ hn⟩

theorem fitting_iff (lines : List Line) : Fitting lines ↔
    ((takenFrom 1 lines).flatMap Statement.labels).Nodup ∧
      ∀ s ∈ takenFrom 1 lines, ∀ w, s.instruction = some w →
        w.Fits ((takenFrom 1 lines).flatMap Statement.labels) := by
  rw [labels_takenFrom]
  constructor
  · rintro ⟨hnodup, hfits⟩
    refine ⟨hnodup, fun s hs w hw => ?_⟩
    obtain ⟨n, l, hl, rfl⟩ := mem_takenFrom hs
    exact hfits l hl w hw
  · rintro ⟨hnodup, hfits⟩
    refine ⟨hnodup, fun l hl w hw => ?_⟩
    obtain ⟨n, hn⟩ := mem_takenFrom_of_mem hl 1
    exact hfits _ hn w hw

theorem Fitting.of_assemble (h : ∀ l ∈ lines, l.Legible) {elide : Bool} {image : Assembly.Image}
    (himage : assemble elide (lines.map Line.render) = .ok image) : Fitting lines :=
  (fitting_iff lines).2 (Assembly.fits_of_assemble (parseAll_legible h) himage)

/-- **A small listing is assembled exactly if it fits.** -/
theorem assembles_iff_fitting (h : ∀ l ∈ lines, l.Legible) {elide : Bool}
    (hsmall : Small elide (lines.map Line.render)) :
    (∃ image, assemble elide (lines.map Line.render) = .ok image) ↔ Fitting lines :=
  (Assembly.assembles_iff (parseAll_legible h) hsmall).trans (fitting_iff lines).symm

/-- In a listing that fits, a jump goes to one of its labels. -/
theorem Fitting.mem_of_jump (h : Fitting lines) {l : Label} (hl : Line.jump l ∈ lines) :
    l.render ∈ lines.flatMap Line.labels := by
  obtain ⟨m, elide, known, labels, pc, n, ws, hm, -, hws, hnames⟩ := h.fits _ hl _ rfl
  obtain rfl : m = .operation .j :=
    Option.some.inj (hm.symm.trans (ofName?_name (.operation .j)))
  obtain ⟨a, -, ha, -⟩ := Assembly.Mnemonic.encode_jump rfl hws
  exact hnames _ (List.mem_singleton.2 rfl) a ha

theorem length_takenFrom (first : Nat) (lines : List Line) :
    (takenFrom first lines).length = lines.length := by
  induction lines generalizing first with
  | nil => rfl
  | cons l lines ih => rw [takenFrom, List.length_cons, List.length_cons, ih]

/-- A line has at most two words, so few lines have few words. -/
theorem small_of_short (h : ∀ l ∈ lines, l.Legible) (hshort : lines.length < 16384)
    (elide : Bool) : Small elide (lines.map Line.render) := by
  intro ss plan hss hplan
  obtain rfl := Except.ok.inj ((parseAll_legible h).symm.trans hss)
  have hplanned := Assembly.layOut_planned hplan
  have hwords := totalWords_le hplanned fun _ hy => hy
  have hlength := hplanned.length_le
  rw [length_takenFrom] at hlength
  omega

theorem labels_sifted (lines : List Line) :
    (sifted lines).flatMap Line.labels = lines.flatMap Line.labels := by
  induction lines with
  | nil => rfl
  | cons l lines ih =>
      rw [List.flatMap_cons, ← ih]
      cases l <;> rfl

/-- **Lines that do nothing make no difference to whether a listing fits.** -/
theorem fitting_sifted : Fitting (sifted lines) ↔ Fitting lines := by
  constructor
  · rintro ⟨hnodup, hfits⟩
    rw [labels_sifted] at hnodup hfits
    refine ⟨hnodup, fun l hl w hw => ?_⟩
    cases hnothing : l.isNothing with
    | false => exact hfits l (List.mem_filter.2 ⟨hl, by simp [hnothing]⟩) w hw
    | true =>
        cases l with
        | nothingFor ins =>
            obtain rfl := Option.some.inj hw
            exact ⟨.nop, false, {}, {}, 0, 1, [0], by decide, rfl, rfl, List.forall_mem_nil _⟩
        | _ => cases hnothing
  · rintro ⟨hnodup, hfits⟩
    refine ⟨by rwa [labels_sifted], fun l hl w hw => ?_⟩
    rw [labels_sifted]
    exact hfits l (List.mem_filter.1 hl).1 w hw

/-- **Lines that no others refer to make no difference**, if they fit for themselves. -/
theorem fitting_append (h : ∀ l ∈ lines, ∀ t ∈ lines'.flatMap Line.labels, t ∉ l.labels ∧
      ∀ w, l.instruction = some w → t ∉ w.operands) (h' : Fitting lines') :
    Fitting (lines ++ lines') ↔ Fitting lines := by
  constructor
  · rintro ⟨hnodup, hfits⟩
    rw [List.flatMap_append] at hnodup hfits
    refine ⟨(List.nodup_append.1 hnodup).1, fun l hl w hw => ?_⟩
    refine (hfits l (List.mem_append_left _ hl) w hw).mono fun t ht hmem => ?_
    exact (List.mem_append.1 hmem).resolve_right fun hmem => (h l hl t hmem).2 w hw ht
  · rintro ⟨hnodup, hfits⟩
    refine ⟨?_, fun l hl w hw => ?_⟩
    · rw [List.flatMap_append, List.nodup_append]
      refine ⟨hnodup, h'.once, ?_⟩
      rintro t ht _ ht' rfl
      obtain ⟨l, hl, ht⟩ := List.mem_flatMap.1 ht
      exact (h l hl t ht').1 ht
    · rw [List.flatMap_append]
      rcases List.mem_append.1 hl with hl | hl
      · exact (hfits l hl w hw).mono fun t _ => List.mem_append_left _
      · exact (h'.fits l hl w hw).mono fun t _ => List.mem_append_right _

end Fitting

end Listing

/-! ### The end of a listing -/

namespace Lowering.Mips

open Listing

theorem fitting_epilogue : Fitting epilogue := by
  have hchunk : Chunk [] (fun _ => False) epilogue := chunk_epilogue
  have hcomplete : Complete epilogue :=
    ⟨fun l hl => (hchunk.sound l hl).1, fun l hl => (hchunk.sound l hl).2, by decide,
      List.forall_mem_singleton.2 (by decide)⟩
  obtain ⟨image, himage, -⟩ := hcomplete.assembles (by decide) false
  exact Fitting.of_assemble (fun l hl => (hcomplete.readable l hl).legible) himage

/-- A line that has nothing to do with a label. -/
def Avoids (d : Label) (l : Line) : Prop := d ∉ l.defines ∧ d ∉ l.uses

section Avoids

variable {c : Context} {d : Label} {w : Progress}

theorem avoids_of_inner {l : Line} (h : l.inner) (hd : d.offset? = none) : Avoids d l := by
  simp only [Line.inner, Bool.and_eq_true, List.all_eq_true] at h
  constructor
  · intro hmem
    have hsome := h.1.2 d hmem
    rw [hd] at hsome
    cases hsome
  · intro hmem
    have hsome := h.2 d hmem
    rw [hd] at hsome
    cases hsome

theorem avoids_of_isAside {l : Line} (h : l.isAside) (hd : d.isMade) : Avoids d l := by
  cases l with
  | label l =>
      cases l with
      | named name =>
          refine ⟨fun hmem => ?_, List.not_mem_nil⟩
          rw [List.mem_singleton.1 hmem] at hd
          cases hd
      | _ => cases h
  | visible _ | comment _ => exact ⟨List.not_mem_nil, List.not_mem_nil⟩
  | _ => cases h

/-- **The lines of instructions have nothing to do with labels around them.** -/
theorem avoids_written (hd : d.isMade) (hnone : d.offset? = none) {xs : List (Instruction × Nat)}
    (h : xs.foldlM (fun w x => Progress.add c w x.1 x.2) {} = .ok w) :
    ∀ l ∈ w.lines.toList, Avoids d l :=
  forall_lines_addAll (fun _ hl => avoids_of_isAside hl hd)
    (fun _ => ⟨List.not_mem_nil, List.not_mem_nil⟩)
    (fun _ _ _ hls l hl => avoids_of_inner (inner_draft hls l hl) hnone) (List.forall_mem_nil _) h

theorem avoids_prologue (hd : d = .exit ∨ d = .exitStatus) (hentry : entryLabel c.functions ≠ .exit)
    (stackTop : UInt32) : ∀ l ∈ prologue c stackTop, Avoids d l := by
  have hlabel : entryLabel c.functions = .start c.functions.entry := by
    unfold entryLabel at hentry ⊢
    split at hentry
    · exact if_pos ‹_›
    · exact absurd rfl hentry
  rw [prologue, hlabel]
  rcases hd with rfl | rfl <;>
    simp [Avoids, enterFrame, Line.defines, Line.uses, Line.immediate, Line.move, Line.jump]

/-- An epilogue that nothing refers to makes no difference. -/
theorem fitting_append_epilogue {lines : List Line} (hlegible : ∀ l ∈ lines, l.Legible)
    (h : ∀ d, d = .exit ∨ d = .exitStatus → ∀ l ∈ lines, Avoids d l) :
    Fitting (lines ++ epilogue) ↔ Fitting lines := by
  refine fitting_append (fun l hl t ht => ?_) fitting_epilogue
  obtain ⟨d, hd, hmade, rfl⟩ : ∃ d : Label, (d = .exit ∨ d = .exitStatus) ∧ d.isMade ∧
      t = d.render := by
    rcases List.mem_pair.1 (show t ∈ [Label.exit.render, Label.exitStatus.render] from ht) with
      rfl | rfl
    · exact ⟨.exit, Or.inl rfl, rfl, rfl⟩
    · exact ⟨.exitStatus, Or.inr rfl, rfl, rfl⟩
  exact ⟨fun hmem => (h d hd l hl).1 ((hlegible l hl).mem_defines hmade hmem),
    fun w hw hmem => (h d hd l hl).2 ((hlegible l hl).mem_uses hw hmade hmem)⟩

end Avoids

section Thinned

variable {p : Program} {s : Settings} {out out' : Output} {fs fs' : Functions} {w w' : Progress}

/-- **Both listings fit, or none of them.** -/
theorem Thinned.fitting (h : Thinned p s fs fs' w w' out out')
    (hlegible : ∀ l ∈ out.lines, l.Legible)
    (hend : ¬(EndsUnknown p.instructions ∧ EntersEnd p.instructions)) :
    Fitting out.lines ↔ Fitting out'.lines := by
  have hlabel := h.entryLabel hend
  have hprologue : prologue ⟨Frame.ofProgram p s, fs'⟩ s.stackTop =
      prologue ⟨Frame.ofProgram p s, fs⟩ s.stackTop := by
    simp only [prologue, hlabel]
  have hlines' : prologue ⟨Frame.ofProgram p s, fs'⟩ s.stackTop ++ w'.lines.toList =
      sifted (prologue ⟨Frame.ofProgram p s, fs⟩ s.stackTop ++ w.lines.toList) := by
    rw [sifted_append, h.sifts.lines, hprologue]
    rfl
  rw [h.lines', hlines']
  rw [h.lines] at hlegible ⊢
  have hneeds : needsExit fs' p.known.instructions = true → needsExit fs p.instructions = true := by
    simp only [needsExit, h.entryReturns, hlabel, Bool.or_eq_true]
    exact Or.imp_right fallsThrough_of_known
  cases hexit' : needsExit fs' p.known.instructions with
  | true =>
      rw [if_pos (hneeds hexit'), if_pos rfl, ← fitting_sifted, sifted_append]
      rfl
  | false =>
      rw [if_neg Bool.false_ne_true, List.append_nil, fitting_sifted]
      cases hexit : needsExit fs p.instructions with
      | false => rw [if_neg Bool.false_ne_true, List.append_nil]
      | true =>
          -- the epilogue is written because of unknown instructions, and nothing refers to it
          rw [if_pos rfl]
          refine fitting_append_epilogue
            (fun l hl => hlegible l (List.mem_append_left _ hl)) fun d hd => ?_
          have hentry : Mips.entryLabel fs ≠ .exit := by
            simp only [needsExit, hlabel, Bool.or_eq_false_iff, beq_eq_false_iff_ne] at hexit'
            exact hexit'.1.2
          refine List.forall_mem_append.2 ⟨avoids_prologue hd hentry _, ?_⟩
          rcases hd with rfl | rfl
          · exact avoids_written rfl rfl h.written
          · exact avoids_written rfl rfl h.written

end Thinned

/-! ### Inert instructions -/

section Inert

variable {p : Program} {s : Settings} {out out' : Output}

/-- No jump or call of a program without unknown instructions goes behind the last byte. -/
theorem not_leadsToEnd (h : lower p.known s = .ok out') : ¬LeadsToEnd p.instructions := by
  rintro ⟨ins, hins, hop, htarget⟩
  obtain ⟨fs', w', -, hfs', hw', -⟩ := lower_ok h
  have hordinary : Ordinary ins := by
    simp only [List.mem_cons, List.not_mem_nil, or_false] at hop
    rcases hop with hop | hop | hop | hop <;> exact ordinary_of_op hop
  have hknown : ins ∈ p.known.instructions := List.mem_filter.2 ⟨hins, hordinary.isKnown⟩
  obtain ⟨i, hi⟩ := List.mem_iff_getElem?.1 hknown
  have hoffset := Instruction.offsets_getElem? (CallFrames.lt_of_getElem? hi)
  obtain ⟨ls, -, -, hls, -⟩ := written_instruction hw'
    (List.mem_of_getElem? (List.getElem?_zip_eq_some.2 ⟨hi, hoffset⟩)) hordinary
  refine ne_end_of_startsAt hfs' (startsAt_of_draft hop hls) ?_
  rw [htarget]
  rfl

/-- **Unknown instructions are inert.**  Take the unknown instructions out of a program.  Unless one
of them stands behind the last byte and something jumps there, the program is refused as before, for
the same reason, or accepted as before; what is accepted without them is always accepted with them.
And if both are accepted, then, unless the program starts at an unknown instruction behind its last
byte, both listings are assembled or none is, as long as they have fewer than 2^15 words. -/
theorem unknown_inert (p : Program) (s : Settings) :
    (¬(EndsUnknown p.instructions ∧ LeadsToEnd p.instructions) →
      ∀ e, lower p s = .error e ↔ lower p.known s = .error e) ∧
    (∀ out', lower p.known s = .ok out' → ∃ out, lower p s = .ok out) ∧
    ∀ out out', lower p s = .ok out → lower p.known s = .ok out' →
      ¬(EndsUnknown p.instructions ∧ EntersEnd p.instructions) →
      ∀ elide, Assembly.Small elide (out.lines.map Line.render) →
        Assembly.Small elide (out'.lines.map Line.render) →
        ((∃ image, assemble elide (out.lines.map Line.render) = .ok image) ↔
          ∃ image, assemble elide (out'.lines.map Line.render) = .ok image) := by
  refine ⟨fun h e => ?_, fun out' hlower' => ?_, ?_⟩
  · rcases paired_iff.1 (lower_known h (s := s)) with
      ⟨e, _, he, he', rfl⟩ | ⟨out, out', hout, hout', -⟩
    · rw [he, he']
    · rw [hout, hout']
      exact ⟨nofun, nofun⟩
  · rcases paired_iff.1 (lower_known (s := s) fun h => not_leadsToEnd hlower' h.2) with
      ⟨e, _, he, he', rfl⟩ | ⟨out, out', hout, -⟩
    · rw [he'] at hlower'
      cases hlower'
    · exact ⟨out, hout⟩
  · intro out out' hlower hlower' hend elide hsmall hsmall'
    have hpaired := lower_known (s := s) fun h => not_leadsToEnd hlower' h.2
    rw [hlower, hlower'] at hpaired
    obtain ⟨fs, fs', w, w', hthinned⟩ : ∃ fs fs' w w', Thinned p s fs fs' w w' out out' := by
      cases hpaired with
      | ok h => exact h
    rw [assembles_iff_fitting (told_of_lower hlower).legible hsmall,
      assembles_iff_fitting (told_of_lower hlower').legible hsmall']
    exact hthinned.fitting (told_of_lower hlower).legible hend

/-- A jump to a return, with an unknown instruction before the return and one behind it. -/
def aroundReturn : Program :=
  ⟨[⟨.jmp, [5], []⟩, ⟨.unknown 98, [], []⟩, ⟨.ret, [], []⟩, ⟨.unknown 99, [], []⟩], 1⟩

theorem lower_aroundReturn :
    (∃ out, lower aroundReturn {} = .ok out ∧ out.lines.length < 16384) ∧
      ∃ out, lower aroundReturn.known {} = .ok out ∧ out.lines.length < 16384 := by
  obtain ⟨fs, hfs⟩ : ∃ fs, ofList aroundReturn.instructions true = .ok fs := ⟨_, rfl⟩
  obtain ⟨fs', hfs'⟩ :
      ∃ fs, ofList aroundReturn.known.instructions true = .ok fs := ⟨_, rfl⟩
  constructor
  · refine lower_short rfl hfs ?_ (by decide)
    show ∀ x ∈ [_, _, _, _], _
    simp only [List.forall_mem_cons]
    exact ⟨short_jump 0 rfl (startsAt_of_any (n := 5) hfs rfl), ⟨_, rfl, by decide⟩,
      short_return _ 5, ⟨_, rfl, by decide⟩, List.forall_mem_nil _⟩
  · refine lower_short rfl hfs' ?_ (by decide)
    show ∀ x ∈ [_, _], _
    simp only [List.forall_mem_cons]
    exact ⟨short_jump 0 rfl (startsAt_of_any (n := 5) hfs' rfl), short_return _ 5,
      List.forall_mem_nil _⟩

theorem unknown_inert_aroundReturn :
    let p := aroundReturn
    EndsUnknown p.instructions ∧ ¬LeadsToEnd p.instructions ∧ ¬EntersEnd p.instructions ∧
      (∀ e, lower p {} = .error e ↔ lower p.known {} = .error e) ∧
      ∃ out out' image image', lower p {} = .ok out ∧ lower p.known {} = .ok out' ∧
        assemble true (out.lines.map Line.render) = .ok image ∧
        assemble true (out'.lines.map Line.render) = .ok image' := by
  intro p
  have hends : EndsUnknown p.instructions := by
    unfold EndsUnknown
    decide
  have hleads : ¬LeadsToEnd p.instructions := by
    unfold LeadsToEnd
    decide
  have henters : ¬EntersEnd p.instructions := by
    unfold EntersEnd
    decide
  obtain ⟨herrors, -, hassembled⟩ := unknown_inert p {}
  obtain ⟨⟨out, hlower, hshort⟩, out', hlower', hshort'⟩ := lower_aroundReturn
  -- without unknown instructions nothing is missing in the listing
  obtain ⟨image', himage'⟩ :=
    assembles_short (by decide) (by unfold Placeable; decide) hlower' hshort'
  obtain ⟨image, himage⟩ := (hassembled out out' hlower hlower' (fun h => henters h.2) true
    (small_of_short (told_of_lower hlower).legible hshort true)
    (small_of_short (told_of_lower hlower').legible hshort' true)).2 ⟨image', himage'⟩
  exact ⟨hends, hleads, henters, herrors fun h => hleads h.2, out, out', image, image', hlower,
    hlower', himage, himage'⟩

/-- A jump to an unknown instruction behind the last byte. -/
def pastEnd : Program := ⟨[⟨.jmp, [5], []⟩, ⟨.unknown 99, [], []⟩], 1⟩

/-- It is accepted, but not without the unknown instruction. -/
theorem lower_pastEnd : (∃ out, lower pastEnd {} = .ok out) ∧
    lower pastEnd.known {} = .error (.instruction 0 ⟨.jmp, [5], []⟩ (.badTarget 5)) := by
  obtain ⟨fs, hfs⟩ : ∃ fs, ofList pastEnd.instructions true = .ok fs := ⟨_, rfl⟩
  obtain ⟨fs', hfs'⟩ :
      ∃ fs, ofList pastEnd.known.instructions true = .ok fs := ⟨_, rfl⟩
  constructor
  · obtain ⟨out, hlower, -⟩ := lower_short rfl hfs (List.forall_mem_cons.2
      ⟨short_jump 0 rfl (startsAt_of_any (n := 5) hfs rfl),
        List.forall_mem_singleton.2 ⟨_, rfl, by decide⟩⟩) (by decide)
    exact ⟨out, hlower⟩
  · have htarget : fs'.startsAt (Instruction.target ⟨.jmp, [5], []⟩) = false :=
      Bool.eq_false_iff.2 fun h => ne_end_of_startsAt hfs' h rfl
    have hdraft : draft ⟨Frame.ofProgram pastEnd.known {}, fs'⟩ 0 ⟨.jmp, [5], []⟩ =
        .error (.badTarget 5) := by
      simp only [draft, operation, jump, targetLabel, htarget]
      rfl
    have hordinary : Ordinary ⟨.jmp, [5], []⟩ := ordinary_of_op rfl
    have hcheck : (Frame.ofProgram pastEnd.known {}).check = .ok () := rfl
    rw [lower, hcheck, ok_bind]
    simp only [hfs', ok_bind]
    show (Progress.add _ _ _ _ >>= _) >>= _ = _
    rw [Progress.add_eq hordinary, hdraft]
    rfl

/-- An unknown instruction with nothing around it. -/
def onlyUnknown : Program := ⟨[⟨.unknown 99, [], []⟩], 1⟩

/-- It is where the program starts, but it has no label; a program of no instructions is
assembled. -/
theorem assemble_onlyUnknown :
    (∃ out, lower onlyUnknown {} = .ok out ∧
      ∀ elide image, assemble elide (out.lines.map Line.render) ≠ .ok image) ∧
    ∃ out image, lower onlyUnknown.known {} = .ok out ∧
      assemble true (out.lines.map Line.render) = .ok image := by
  constructor
  · obtain ⟨fs, hfs, hzero⟩ : ∃ fs, ofList onlyUnknown.instructions true = .ok fs ∧
        fs.entry = 0 := ⟨_, rfl, rfl⟩
    have hentry : entryLabel fs = .start 0 := by
      have hstarts : fs.startsAt (0 : Nat) = true := startsAt_of_any hfs rfl
      rw [entryLabel, hzero, if_pos hstarts]
    obtain ⟨out, hlower, -, hlines⟩ := lower_of_parts (p := onlyUnknown) (s := {}) rfl hfs rfl
    refine ⟨out, hlower, fun elide image himage => ?_⟩
    have hmem := (Fitting.of_assemble (told_of_lower hlower).legible himage).mem_of_jump
      (l := .start 0) (by simp [hlines, prologue, hentry])
    have hlabels : out.lines.flatMap Line.labels =
        [Label.main.render, Label.exit.render, Label.exitStatus.render] := by
      rw [hlines]
      rfl
    rw [hlabels] at hmem
    revert hmem
    decide
  · obtain ⟨fs, hfs⟩ :
        ∃ fs, ofList onlyUnknown.known.instructions true = .ok fs := ⟨_, rfl⟩
    obtain ⟨out, hlower, hshort⟩ := lower_short rfl hfs (List.forall_mem_nil _) (by decide)
    obtain ⟨image, himage⟩ := assembles_short (by decide) (List.forall_mem_nil _) hlower hshort
    exact ⟨out, image, hlower, himage⟩

/-- **What an unknown instruction behind the last byte changes.**  A jump to it is accepted; and a
program that starts there is accepted but not assembled. -/
theorem unknown_at_end :
    ((∃ out, lower pastEnd {} = .ok out) ∧
      lower pastEnd.known {} = .error (.instruction 0 ⟨.jmp, [5], []⟩ (.badTarget 5))) ∧
    (∃ out, lower onlyUnknown {} = .ok out ∧
      ∀ elide image, assemble elide (out.lines.map Line.render) ≠ .ok image) ∧
    ∃ out image, lower onlyUnknown.known {} = .ok out ∧
      assemble true (out.lines.map Line.render) = .ok image :=
  ⟨lower_pastEnd, assemble_onlyUnknown⟩

end Inert

end Lowering.Mips

end StackCompiler
