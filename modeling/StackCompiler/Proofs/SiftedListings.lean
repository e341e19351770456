/-
**Programs without their unknown instructions.**

An unknown instruction has no bytes, but it stands at an offset, and a jump may go there.  Before
the last byte of a program this makes no difference, since an instruction with bytes starts at the
same offset.  Behind the last byte it does: nothing else starts there.  Apart from that, a program
without its unknown instructions is divided into the same functions, frames have the same size, and
the listing is the same without the lines that do nothing; or both programs are refused for the same
reason.

* `Lowering.Mips.lower_known` — **without its unknown instructions a program is refused for the same
  reason, or has the listing without the lines that do nothing**.
-/

import StackCompiler.Proofs.InertPaths
import StackCompiler.Proofs.NameIndependence
import StackCompiler.Proofs.UnknownRemarks
import StackCompiler.Proofs.VisibleSymbols

namespace StackCompiler

/-! ### Programs without their unknown instructions -/

/-- A program without unknown instructions. -/
def Program.known (p : Program) : Program :=
  { p with instructions := p.instructions.filter (·.op.isKnown) }

namespace Instruction

variable {list : List Instruction}

/-- Without unknown instructions all others keep their offsets. -/
theorem located_filter (list : List Instruction) :
    (list.filter (·.op.isKnown)).zip (offsets (list.filter (·.op.isKnown))) =
      (list.zip (offsets list)).filter (·.1.op.isKnown) := by
  suffices h : ∀ start, (list.filter (·.op.isKnown)).zip
      (offsetsFrom start (list.filter (·.op.isKnown))) =
        (list.zip (offsetsFrom start list)).filter (·.1.op.isKnown) from h 0
  induction list with
  | nil => exact fun _ => rfl
  | cons ins list ih =>
      intro start
      cases hknown : ins.op.isKnown with
      | false =>
          rw [List.filter_cons_of_neg (by simp [hknown]), ih, offsetsFrom,
            width_of_unknown hknown, Nat.add_zero, List.zip_cons_cons,
            List.filter_cons_of_neg (by simp [hknown])]
      | true =>
          rw [List.filter_cons_of_pos (by simpa using hknown), offsetsFrom, List.zip_cons_cons, ih,
            offsetsFrom, List.zip_cons_cons, List.filter_cons_of_pos (by simpa using hknown)]

/-- Before the last byte, an instruction with bytes starts at every offset. -/
theorem exists_bytes {n : Nat} (h : n ∈ offsets list) (hlt : n < totalSize list) :
    ∃ x ∈ list.zip (offsets list), x.2 = n ∧ 0 < x.1.width := by
  suffices hfrom : ∀ start, n ∈ offsetsFrom start list → n < start + totalSize list →
      ∃ x ∈ list.zip (offsetsFrom start list), x.2 = n ∧ 0 < x.1.width from
    hfrom 0 h (by omega)
  clear h hlt
  induction list with
  | nil => exact fun _ h => nomatch h
  | cons ins list ih =>
      intro start h hlt
      rw [totalSize_cons] at hlt
      rw [offsetsFrom, List.zip_cons_cons]
      by_cases hhere : n = start ∧ 0 < ins.width
      · exact ⟨(ins, start), List.mem_cons_self, hhere.1.symm, hhere.2⟩
      · have hrest : n ∈ offsetsFrom (start + ins.width) list := by
          rcases List.mem_cons.1 h with rfl | h
          · -- nothing stands here, so the next instruction has the same offset
            have hwidth : ins.width = 0 := by omega
            cases list with
            | nil => simp [hwidth] at hlt
            | cons next list => simp [offsetsFrom, hwidth]
          · exact h
        obtain ⟨x, hx, hat⟩ := ih _ hrest (by omega)
        exact ⟨x, List.mem_cons_of_mem _ hx, hat⟩

theorem width_pos {ins : Instruction} (hknown : ins.op.isKnown = true)
    (hmarker : ins.op.isMarker = false) : 0 < ins.width := by
  rw [width]
  cases hop : ins.op with
  | entry | global => rw [hop] at hmarker; cases hmarker
  | unknown n => rw [hop] at hknown; cases hknown
  | _ => decide

theorem end_le_totalSize {x : Instruction × Nat} (hx : x ∈ list.zip (offsets list)) :
    x.2 + x.1.width ≤ totalSize list := by
  obtain ⟨i, hi⟩ := List.mem_iff_getElem?.1 hx
  obtain ⟨hins, ho⟩ := List.getElem?_zip_eq_some.1 hi
  exact offset_add_width_le ho hins

end Instruction

namespace Lowering

open Instruction (offsets totalSize)

/-- An unknown instruction stands at the end. -/
def EndsUnknown (list : List Instruction) : Prop := ∃ x ∈ unknownIn list, x.2 = totalSize list

/-- A jump or a call leads to the end. -/
def LeadsToEnd (list : List Instruction) : Prop :=
  ∃ ins ∈ list, ins.op ∈ [.jmp, .jmpz, .jmpnz, .invoke] ∧ ins.target = totalSize list

/-- The program starts at its end. -/
def EntersEnd (list : List Instruction) : Prop :=
  (Functions.entryMarker? (list.zip (offsets list))).getD 0 = totalSize list

/-! ### Functions -/

namespace Functions

variable {list : List Instruction} {implicitEntry : Bool} {fs fs' : Functions}

/-- Something known starts where anything starts, the end apart. -/
theorem contains_boundaries_filter (list : List Instruction) (n : Nat) :
    (boundariesOf ((list.zip (offsets list)).filter (·.1.op.isKnown))).contains n = true ↔
      n ≠ totalSize list ∧ (boundariesOf (list.zip (offsets list))).contains n = true := by
  simp only [contains_boundariesOf, List.any_eq_true, List.mem_filter, Bool.and_eq_true,
    Bool.not_eq_true', beq_iff_eq]
  constructor
  · rintro ⟨x, ⟨hx, hknown⟩, hmarker, rfl⟩
    have hwidth := Instruction.width_pos hknown hmarker
    have hend := Instruction.end_le_totalSize hx
    exact ⟨by omega, x, hx, hmarker, rfl⟩
  · rintro ⟨hne, x, hx, -, rfl⟩
    have hend := Instruction.end_le_totalSize hx
    obtain ⟨y, hy, hat, hwidth⟩ :=
      Instruction.exists_bytes (List.of_mem_zip hx).2 (by omega)
    have hordinary := Mips.Placeable.ordinary hwidth
    exact ⟨y, ⟨hy, hordinary.isKnown⟩, hordinary.1, hat⟩

/-- What starts at the end is unknown. -/
theorem contains_boundaries_end (list : List Instruction) :
    (boundariesOf (list.zip (offsets list))).contains (totalSize list) = true ↔
      EndsUnknown list := by
  simp only [contains_boundariesOf, List.any_eq_true, EndsUnknown, unknownIn, List.mem_filter,
    Bool.and_eq_true, Bool.not_eq_true', beq_iff_eq]
  constructor
  · rintro ⟨x, hx, hmarker, hat⟩
    refine ⟨x, ⟨hx, ?_⟩, hat⟩
    have hend := Instruction.end_le_totalSize hx
    by_contra hknown
    have hwidth := Instruction.width_pos (Bool.not_eq_false _ ▸ hknown) hmarker
    omega
  · rintro ⟨x, ⟨hx, hknown⟩, hat⟩
    refine ⟨x, hx, ?_, hat⟩
    by_contra hmarker
    rw [Op.isKnown_of_isMarker (Bool.not_eq_false _ ▸ hmarker)] at hknown
    cases hknown

variable {target : Int}

/-- **Unknown instructions change where one can jump to at the end only.** -/
theorem isBoundary_filter (h : target = totalSize list → ¬EndsUnknown list) :
    isBoundary (boundariesOf ((list.zip (offsets list)).filter (·.1.op.isKnown))) target =
      isBoundary (boundariesOf (list.zip (offsets list))) target := by
  cases target with
  | negSucc n => rfl
  | ofNat n =>
      rw [Bool.eq_iff_iff]
      refine (contains_boundaries_filter list n).trans (and_iff_right_of_imp ?_)
      rintro hstarts rfl
      exact h rfl ((contains_boundaries_end list).1 hstarts)

theorem startsIn_filter (xs : List (Instruction × Nat)) :
    startsIn (xs.filter (·.1.op.isKnown)) = startsIn xs := by
  have hflat : (xs.filter (·.1.op.isKnown)).flatMap (fun x => startsOf x.1 x.2) =
      xs.flatMap fun x => startsOf x.1 x.2 := by
    induction xs with
    | nil => rfl
    | cons x xs ih =>
        cases hknown : x.1.op.isKnown with
        | true =>
            rw [List.filter_cons_of_pos (by simpa using hknown), List.flatMap_cons, ih,
              List.flatMap_cons]
        | false =>
            have hnone : startsOf x.1 x.2 = [] := by
              obtain ⟨n, hop⟩ := Op.eq_unknown hknown
              rw [startsOf, hop]
              rfl
            rw [List.filter_cons_of_neg (by simp [hknown]), ih, List.flatMap_cons, hnone,
              List.nil_append]
  unfold startsIn
  exact congrArg (fun starts => ((0 :: starts).mergeSort).eraseReps) hflat

theorem entryMarker?_filter (xs : List (Instruction × Nat)) :
    entryMarker? (xs.filter (·.1.op.isKnown)) = entryMarker? xs := by
  rw [entryMarker?, entryMarker?, List.find?_filter]
  congr 2
  funext x
  by_cases hop : x.1.op = .entry
  · simp [hop, Op.isKnown]
  · simp [hop]

/-- The first bad call is the same one, unless a call goes to an unknown instruction at the end. -/
theorem badCall?_filter (h : ∀ ins ∈ list, ins.op = .invoke → ins.target = totalSize list →
      ¬EndsUnknown list) :
    badCall? (boundariesOf ((list.zip (offsets list)).filter (·.1.op.isKnown)))
        ((list.zip (offsets list)).filter (·.1.op.isKnown)) =
      badCall? (boundariesOf (list.zip (offsets list))) (list.zip (offsets list)) := by
  rw [badCall?, badCall?, ← List.head?_filterMap, ← List.head?_filterMap, List.filterMap_filter]
  refine congrArg List.head? (List.filterMap_congr fun x hx => ?_)
  obtain ⟨ins, offset⟩ := x
  by_cases hop : ins.op = .invoke
  · have hknown : ins.op.isKnown = true := by rw [hop]; rfl
    simp only [hknown, if_true, isBoundary_filter (h ins (List.of_mem_zip hx).1 hop)]
  · simp [hop]

/-- **Without its unknown instructions a list is divided at the same places**, or there is the same
reason not to divide it. -/
theorem ofList_filter (h : ∀ ins ∈ list, ins.op = .invoke → ins.target = totalSize list →
      ¬EndsUnknown list) (implicitEntry : Bool) :
    Paired Eq (fun fs fs' => fs'.entry = fs.entry) (ofList list implicitEntry)
      (ofList (list.filter (·.op.isKnown)) implicitEntry) := by
  unfold ofList
  simp only [Instruction.located_filter, badCall?_filter h, entryMarker?_filter]
  split
  · exact .error rfl
  · split
    · exact .error rfl
    · exact .ok rfl

theorem entry_of_ofList (hfs : ofList list implicitEntry = .ok fs) :
    (entryMarker? (list.zip (offsets list))).getD 0 = fs.entry := by
  have hentry := (ofList_ok hfs).2.1
  cases hmarker : entryMarker? (list.zip (offsets list)) with
  | some n =>
      rw [hmarker] at hentry
      exact Option.some.inj hentry
  | none =>
      rw [hmarker, Option.none_or] at hentry
      split at hentry
      · exact Option.some.inj hentry
      · cases hentry

theorem inEntry_filter (hfs : ofList list implicitEntry = .ok fs)
    (hfs' : ofList (list.filter (·.op.isKnown)) implicitEntry = .ok fs')
    (hentry : fs'.entry = fs.entry) (offset : Nat) : fs'.inEntry offset = fs.inEntry offset := by
  rw [Bool.eq_iff_iff, inEntry_iff hfs', inEntry_iff hfs, Instruction.located_filter,
    startsIn_filter, hentry]

theorem startsAt_filter (hfs : ofList list implicitEntry = .ok fs)
    (hfs' : ofList (list.filter (·.op.isKnown)) implicitEntry = .ok fs')
    (h : target = totalSize list → ¬EndsUnknown list) :
    fs'.startsAt target = fs.startsAt target := by
  rw [startsAt, startsAt, boundaries_of_ofList hfs', boundaries_of_ofList hfs,
    Instruction.located_filter, isBoundary_filter h]

/-- Nothing known starts at the end. -/
theorem ne_end_of_startsAt (hfs' : ofList (list.filter (·.op.isKnown)) implicitEntry = .ok fs')
    (h : fs'.startsAt target = true) : target ≠ totalSize list := by
  rintro rfl
  rw [startsAt, boundaries_of_ofList hfs', Instruction.located_filter] at h
  exact ((contains_boundaries_filter list _).1 h).1 rfl

end Functions

end Lowering

/-! ### Listings -/

namespace Listing

variable {lines lines' : List Line}

/-- Lines without those for unknown instructions. -/
def sifted (lines : List Line) : List Line := lines.filter fun l => !l.isNothing

theorem sifted_append (lines lines' : List Line) :
    sifted (lines ++ lines') = sifted lines ++ sifted lines' := List.filter_append lines lines'

theorem sifted_of_all (h : ∀ l ∈ lines, l.isNothing = false) : sifted lines = lines :=
  List.filter_eq_self.2 fun l hl => by simp [h l hl]

theorem Line.isNothing_of_inner {l : Line} (h : l.inner) : l.isNothing = false := by
  simp only [Line.inner, Bool.and_eq_true, Bool.not_eq_true'] at h
  exact h.1.1

theorem Line.isNothing_of_isAside {l : Line} (h : l.isAside) : l.isNothing = false := by
  cases l with
  | nothingFor ins => cases h
  | _ => rfl

end Listing

namespace Lowering.Mips

open Listing
open Instruction (offsets totalSize)

/-- One listing is the other one without the lines that do nothing. -/
structure Sifts (w w' : Progress) : Prop where
  lines : w'.lines.toList = sifted w.lines.toList
  names : w'.names = w.names

section Sifts

variable {c c' : Context} {w w' : Progress} {ins : Instruction} {offset : Nat}

theorem sifts_empty : Sifts {} {} := ⟨rfl, rfl⟩

/-- An unknown instruction adds a line that does nothing. -/
theorem Sifts.unknown (h : Sifts w w') (c : Context) (offset : Nat)
    (hunknown : ins.op.isKnown = false) : ∃ v, w.add c ins offset = .ok v ∧ Sifts v w' := by
  obtain ⟨n, hop⟩ := Op.eq_unknown hunknown
  simp only [Progress.add, hop]
  refine ⟨_, rfl, ?_, h.names⟩
  rw [Array.toList_push, sifted_append, h.lines]
  exact (List.append_nil _).symm

/-- **A known instruction adds the same lines to both listings**, or fails in both. -/
theorem Sifts.known (h : Sifts w w') (hknown : ins.op.isKnown = true)
    (hdraft : draft c' offset ins = draft c offset ins) :
    Paired Eq Sifts (w.add c ins offset) (w'.add c' ins offset) := by
  have happend : ∀ ls : List Line, (∀ l ∈ ls, l.isNothing = false) →
      w'.lines.toList ++ ls = sifted (w.lines.toList ++ ls) := by
    intro ls hls
    rw [sifted_append, sifted_of_all hls, h.lines]
  rcases kind_cases ins with hop | hop | ⟨n, hop⟩ | hordinary
  · simp only [Progress.add, hop]
    refine .ok ⟨?_, h.names⟩
    rw [Array.toList_push, Array.toList_push]
    exact happend _ (List.forall_mem_singleton.2 rfl)
  · simp only [Progress.add, hop, h.names]
    refine .ok ⟨?_, rfl⟩
    rw [Array.toList_appendList, Array.toList_appendList]
    have hasides := List.filter_eq_nil_iff.1 (bare_declare w.names ins.symbol)
    exact happend _ fun l hl => Line.isNothing_of_isAside (by simpa using hasides l hl)
  · rw [hop] at hknown
    cases hknown
  · rw [Progress.add_eq hordinary, Progress.add_eq hordinary, hdraft]
    split
    · next ls hls =>
      refine .ok ⟨?_, h.names⟩
      rw [Array.toList_appendList, Array.toList_appendList]
      exact happend _ fun l hl => Line.isNothing_of_inner (inner_draft hls l hl)
    · exact .error rfl

/-- **Without unknown instructions a listing has no lines that do nothing**, and is the same
otherwise. -/
theorem Sifts.addAll (h : Sifts w w') {xs : List (Instruction × Nat)}
    (hdraft : ∀ x ∈ xs, draft c' x.2 x.1 = draft c x.2 x.1) :
    Paired Eq Sifts (xs.foldlM (fun w x => Progress.add c w x.1 x.2) w)
      ((xs.filter (·.1.op.isKnown)).foldlM (fun w x => Progress.add c' w x.1 x.2) w') := by
  induction xs generalizing w w' with
  | nil => exact .ok h
  | cons x xs ih =>
      obtain ⟨hx, hdraft⟩ := List.forall_mem_cons.1 hdraft
      rw [List.foldlM_cons]
      cases hknown : x.1.op.isKnown with
      | false =>
          obtain ⟨v, hv, hsifts⟩ := h.unknown c x.2 hknown
          rw [hv, ok_bind, List.filter_cons_of_neg (by simp [hknown])]
          exact ih hsifts hdraft
      | true =>
          rw [List.filter_cons_of_pos (by simpa using hknown), List.foldlM_cons]
          exact (h.known hknown hx).bind fun v v' hsifts => ih hsifts hdraft

end Sifts

/-! ### Programs -/

/-- A program that runs off its end without its unknown instructions does so with them. -/
theorem fallsThrough_of_known {list : List Instruction}
    (h : fallsThrough (list.filter (·.op.isKnown)) = true) : fallsThrough list = true := by
  unfold fallsThrough at h ⊢
  rw [← List.filter_reverse] at h
  generalize list.reverse = rest at h ⊢
  induction rest with
  | nil => cases h
  | cons ins rest ih =>
      cases hknown : ins.op.isKnown with
      | false =>
          -- an unknown instruction at the end is no jump
          obtain ⟨n, hop⟩ := Op.eq_unknown hknown
          simp [Op.isMarker, hop]
      | true =>
          rw [List.filter_cons_of_pos (by simpa using hknown)] at h
          cases hmarker : ins.op.isMarker with
          | true =>
              rw [List.find?_cons_of_neg (by simp [hmarker])] at h ⊢
              exact ih h
          | false =>
              rw [List.find?_cons_of_pos (by simp [hmarker])] at h ⊢
              exact h

variable {p : Program} {s : Settings} {out out' : Output} {fs fs' : Functions} {w w' : Progress}

theorem ofProgram_known (p : Program) (s : Settings) :
    Frame.ofProgram p.known s = Frame.ofProgram p s := by
  simp only [Frame.ofProgram, Frame.depthFor, Program.known, Paths.estimateDepth_filter]

/-- The listings of a program and of the same one without its unknown instructions. -/
structure Thinned (p : Program) (s : Settings) (fs fs' : Functions) (w w' : Progress)
    (out out' : Output) : Prop where
  functions : Functions.ofList p.instructions s.features.implicitEntry = .ok fs
  functions' : Functions.ofList p.known.instructions s.features.implicitEntry = .ok fs'
  entry : fs'.entry = fs.entry
  written : (p.instructions.zip (offsets p.instructions)).foldlM
    (fun w x => Progress.add ⟨Frame.ofProgram p s, fs⟩ w x.1 x.2) {} = .ok w
  sifts : Sifts w w'
  lines : out.lines = prologue ⟨Frame.ofProgram p s, fs⟩ s.stackTop ++ w.lines.toList ++
    (if needsExit fs p.instructions then epilogue else [])
  lines' : out'.lines = prologue ⟨Frame.ofProgram p s, fs'⟩ s.stackTop ++ w'.lines.toList ++
    (if needsExit fs' p.known.instructions then epilogue else [])

/-- **Without its unknown instructions a program is refused for the same reason**, or has the
listing without the lines that do nothing. -/
theorem lower_known (h : ¬(EndsUnknown p.instructions ∧ LeadsToEnd p.instructions)) :
    Paired Eq (fun out out' => ∃ fs fs' w w', Thinned p s fs fs' w w' out out') (lower p s)
      (lower p.known s) := by
  have hend : ∀ ins ∈ p.instructions, ins.op ∈ [.jmp, .jmpz, .jmpnz, .invoke] →
      ins.target = totalSize p.instructions → ¬EndsUnknown p.instructions :=
    fun ins hins hop htarget hunknown => h ⟨hunknown, ins, hins, hop, htarget⟩
  have hfunctions := Functions.ofList_filter (fun ins hins hop => hend ins hins (by simp [hop]))
    s.features.implicitEntry
  rw [lower, lower, ofProgram_known]
  cases (Frame.ofProgram p s).check with
  | error e => exact .error rfl
  | ok _ =>
      rcases paired_iff.1 hfunctions with ⟨e, _, hfs, hfs', rfl⟩ | ⟨fs, fs', hfs, hfs', hentry⟩
      · simp only [Program.known, hfs, hfs']
        exact .error rfl
      · have hdraft : ∀ x ∈ p.instructions.zip (offsets p.instructions),
            draft ⟨Frame.ofProgram p s, fs'⟩ x.2 x.1 = draft ⟨Frame.ofProgram p s, fs⟩ x.2 x.1 :=
          fun x hx => draft_congr_at rfl rfl rfl
            (fun hop => Functions.startsAt_filter hfs hfs' (hend x.1 (List.of_mem_zip hx).1 hop))
            fun _ => Functions.inEntry_filter hfs hfs' hentry x.2
        have hwritten := sifts_empty.addAll hdraft
        rw [← Instruction.located_filter] at hwritten
        simp only [Program.known, hfs, hfs']
        exact hwritten.left.bind fun w w' hw =>
          .ok ⟨fs, fs', w, w', hfs, hfs', hentry, hw.1, hw.2, rfl, rfl⟩

theorem Thinned.entryReturns (h : Thinned p s fs fs' w w' out out') :
    Mips.entryReturns fs' (p.known.instructions.zip (offsets p.known.instructions)) =
      Mips.entryReturns fs (p.instructions.zip (offsets p.instructions)) := by
  simp only [Mips.entryReturns, Program.known, Instruction.located_filter, List.any_filter,
    Functions.inEntry_filter h.functions h.functions' h.entry]
  congr 1
  funext x
  by_cases hop : x.1.op = .ret
  · simp [hop, Op.isKnown]
  · simp [hop]

theorem Thinned.entryLabel (h : Thinned p s fs fs' w w' out out')
    (hend : ¬(EndsUnknown p.instructions ∧ EntersEnd p.instructions)) :
    Mips.entryLabel fs' = Mips.entryLabel fs := by
  have hstarts : fs'.startsAt fs.entry = fs.startsAt fs.entry := by
    refine Functions.startsAt_filter h.functions h.functions' fun hentry hunknown => ?_
    exact hend ⟨hunknown, (Functions.entry_of_ofList h.functions).trans (Int.ofNat.inj hentry)⟩
  rw [Mips.entryLabel, Mips.entryLabel, h.entry, hstarts]

end Lowering.Mips

end StackCompiler
