/-
**Names that all see as labels of an image.**

A visibility marker names the instruction behind it.  Lowering either turns the name down with a
remark or writes a line with the name and a colon, and the assembler reads that line.  The two do
not quite agree on what a name is.  To lowering a name may start with a point; to the assembler a
line that starts with a point is a directive, which defines nothing and is no error.  Such a name is
neither remarked on nor a label.  Every other name that is not remarked on is a label, and its
address is that of the instruction behind the marker: only markers stand between the two, and their
lines have no words.

* `Lowering.Mips.remarks_of_lower` — **which names are remarked on**;
* `exported_labels` — **a name that is not remarked on is a label with the address of its
  instruction, unless it starts with a point**.
-/

import StackCompiler.Proofs.NameIndependence
import StackCompiler.Proofs.OffsetAgreement
import StackCompiler.Proofs.VisibleSymbols

namespace StackCompiler

open Instruction (offsets)

/-! ### Where labels come from -/

namespace Assembly

/-- A label was there before, or a statement has defined it. -/
theorem label_of_addAll {elide : Bool} {ss : List Statement} {p q : Plan}
    (h : ss.foldlM (Plan.add elide) p = .ok q) {name : Text} {a : UInt32}
    (ha : q.labels[name]? = some a) : p.labels[name]? = some a ∨ ∃ s ∈ ss, name ∈ s.labels := by
  induction ss generalizing p with
  | nil =>
      obtain rfl := foldlM_nil_ok_iff.1 h
      exact Or.inl ha
  | cons s ss ih =>
      obtain ⟨r, hr, hq⟩ := foldlM_cons_ok_iff.1 h
      rcases ih hq with ha | ⟨s', hs', hname⟩
      · rcases (Plan.add_ok hr).1.only name a ha with ha | ⟨hname, -⟩
        · exact Or.inl ha
        · exact Or.inr ⟨s, List.mem_cons_self, hname⟩
      · exact Or.inr ⟨s', List.mem_cons_of_mem _ hs', hname⟩

end Assembly

namespace Listing

open Assembly (Image Laid addressOf)

variable {elide : Bool} {image : Image} {l : Line} {lines : List Line} {k j : Nat}

/-- No line makes a text that starts with a point a label. -/
theorem Line.head_labels {name : Text} (h : name ∈ l.labels) : name.head? ≠ some 46 := by
  have hmade : ∀ l : Label, l.isMade → l.render.head? ≠ some 46 := by
    intro l hl
    cases l with
    | named => cases hl
    | _ => exact fun hhead => nomatch hhead
  cases l with
  | label l =>
      cases l with
      | named given =>
          change name ∈ namedLabels given at h
          unfold namedLabels at h
          split at h
          · cases h
          · next hgiven => rwa [List.mem_singleton.1 h]
      | _ =>
          obtain rfl := List.mem_singleton.1 h
          exact hmade _ rfl
  | place offset ins =>
      obtain rfl := List.mem_singleton.1 h
      exact hmade _ rfl
  | _ => cases h

/-- **No label of an assembled listing starts with a point.** -/
theorem labels_point (hlegible : ∀ l ∈ lines, l.Legible)
    (himage : Assembly.assemble elide (lines.map Line.render) = .ok image) {name : Text}
    (hname : name.head? = some 46) : image.labels[name]? = none := by
  obtain ⟨ss, plan, -, hss, hplan, hlabels, -, -⟩ := Assembly.assemble_emitted himage
  obtain rfl := Except.ok.inj ((parseAll_legible hlegible).symm.trans hss)
  rw [Option.eq_none_iff_forall_ne_some]
  intro a ha
  rw [hlabels] at ha
  rcases Assembly.label_of_addAll (foldlM_mapError_ok_iff.1 hplan) ha with ha | ⟨s, hs, hmem⟩
  · simp at ha
  · obtain ⟨n, l, -, rfl⟩ := mem_takenFrom hs
    exact Line.head_labels hmem hname

/-- The labels of a legible line have the address of the next word, and a line without an
instruction has no words. -/
theorem laid_legible {rest : List Text} (hl : l.Legible)
    (h : Laid elide image k (l.render :: rest) j) :
    (∀ name ∈ l.labels, image.labels[name]? = some (addressOf k)) ∧
      (l.instruction = none → Laid elide image k rest j) := by
  obtain ⟨n, s, i, hs, hplaced, hrest⟩ := h
  rw [parse_legible n hl] at hs
  obtain rfl := Except.ok.inj hs
  refine ⟨hplaced.labels, fun hnone => ?_⟩
  obtain rfl := hplaced.silent hnone
  exact hrest

/-- Names and remarks have no words. -/
theorem laid_asides {rest : List Text} (hlines : ∀ l ∈ lines, l.isAside ∧ l.Legible)
    (h : Laid elide image k (lines.map Line.render ++ rest) j) : Laid elide image k rest j := by
  induction lines with
  | nil => exact h
  | cons l lines ih =>
      obtain ⟨⟨haside, hl⟩, hlines⟩ := List.forall_mem_cons.1 hlines
      exact ih hlines ((laid_legible hl h).2 (Line.instruction_aside haside))

end Listing

namespace Lowering.Mips

open Listing

/-! ### Remarks on names -/

/-- Whether the name of a marker can be a label, others apart. -/
def isUsable (name : Text) : Bool := Text.isIdentifier name && !isReserved name

/-- **What is wrong with the name of a visibility marker** behind some instructions: it can not be a
label, or a marker before it has the same name. -/
def nameMatter? (before : List Instruction) (ins : Instruction) : Option Matter :=
  if ins.op ≠ .global then none
  else if !isUsable ins.symbol then some (.unusableName ins.symbol)
  else if before.any fun m => m.op = .global && m.symbol == ins.symbol then
    some (.repeatedName ins.symbol)
  else none

/-- The remarks on names of instructions with offsets, behind other instructions. -/
def nameRemarksFrom (before : List Instruction) : List (Instruction × Nat) → List Remark
  | [] => []
  | (ins, offset) :: xs =>
    ((nameMatter? before ins).map (Remark.mk offset)).toList ++ nameRemarksFrom (before ++ [ins]) xs

/-- **The remarks on the names of a program**, in order. -/
def nameRemarks (list : List Instruction) : List Remark :=
  nameRemarksFrom [] (list.zip (offsets list))

/-- The remarks on names. -/
def onNames (remarks : List Remark) : List Remark :=
  remarks.filter fun r => r.matter.warning = .symbolName

/-- The names that a listing knows while it is written are those of the markers so far. -/
def Knows (before : List Instruction) (w : Progress) : Prop :=
  ∀ name, isUsable name → (name ∈ w.names ↔ ∃ m ∈ before, m.op = .global ∧ m.symbol = name)

section Remarks

variable {c : Context} {before : List Instruction} {w w' : Progress} {ins : Instruction}
  {offset : Nat}

theorem isUsable_eq (name : Text) :
    isUsable name = !(!Text.isIdentifier name || isReserved name) := by
  rw [isUsable, Bool.not_or, Bool.not_not]

theorem declare_matter (h : Knows before w) (hop : ins.op = .global) :
    (declare w.names ins.symbol).2 = nameMatter? before ins := by
  unfold declare nameMatter?
  rw [if_neg (not_not_intro hop), isUsable_eq, Bool.not_not]
  split
  · rfl
  · next husable =>
    have hknown := h ins.symbol (by rw [isUsable_eq, Bool.eq_false_iff.2 husable]; rfl)
    have hsame : w.names.contains ins.symbol =
        before.any fun m => m.op = .global && m.symbol == ins.symbol := by
      rw [Bool.eq_iff_iff, List.contains_iff_mem, hknown, List.any_eq_true]
      simp
    rw [hsame]
    split <;> rfl

theorem declare_lines {names : List Text} {name : Text} (h : (declare names name).2 = none) :
    (declare names name).1 = [.visible (.named name), .label (.named name)] := by
  unfold declare at h ⊢
  split at h
  · cases h
  · next husable =>
    rw [if_neg husable]
    split at h
    · cases h
    · next hnew => rw [if_neg hnew]

theorem onNames_append (rs rs' : List Remark) : onNames (rs ++ rs') = onNames rs ++ onNames rs' :=
  List.filter_append rs rs'

/-- What is wrong with a name is reported as a matter of names. -/
theorem onNames_nameMatter (before : List Instruction) (ins : Instruction) (offset : Nat) :
    onNames ((nameMatter? before ins).map (Remark.mk offset)).toList =
      ((nameMatter? before ins).map (Remark.mk offset)).toList := by
  unfold nameMatter?
  split
  · rfl
  · split
    · rfl
    · split <;> rfl

/-- An instruction that is no visibility marker adds no name and no remark on one. -/
theorem Knows.other (h : Knows before w) (hop : ins.op ≠ .global) (hnames : w'.names = w.names)
    (hremarks : onNames w'.remarks.toList = onNames w.remarks.toList) :
    Knows (before ++ [ins]) w' ∧ onNames w'.remarks.toList = onNames w.remarks.toList ++
      ((nameMatter? before ins).map (Remark.mk offset)).toList := by
  refine ⟨fun name hname => ?_, ?_⟩
  · rw [hnames, h name hname]
    simp [hop]
  · rw [hremarks, nameMatter?, if_pos hop]
    simp

/-- A visibility marker makes its name known, unless it can not be a label or is known already. -/
theorem Knows.marker (h : Knows before w) (hop : ins.op = .global)
    (hnames : w'.names =
      if (nameMatter? before ins).isNone then ins.symbol :: w.names else w.names) :
    Knows (before ++ [ins]) w' := by
  intro name hname
  have hsplit : (∃ m ∈ before ++ [ins], m.op = .global ∧ m.symbol = name) ↔
      name ∈ w.names ∨ ins.symbol = name := by
    simp [h name hname, or_and_right, exists_or, hop]
  rw [hsplit, hnames]
  unfold nameMatter?
  rw [if_neg (not_not_intro hop)]
  split
  · next hunusable =>
    -- a name that can be a label is another one
    have hne : ins.symbol ≠ name := by
      rintro rfl
      rw [hname] at hunusable
      cases hunusable
    simp [hne]
  · split
    · next hrepeated =>
      have hold : ins.symbol = name → name ∈ w.names := by
        rintro rfl
        rw [h _ hname]
        simpa using hrepeated
      simpa using hold
    · simp [or_comm, eq_comm]

/-- **One instruction keeps the names known** and adds the remark on its name. -/
theorem Knows.add (h : Knows before w) (hadd : w.add c ins offset = .ok w') :
    Knows (before ++ [ins]) w' ∧ onNames w'.remarks.toList = onNames w.remarks.toList ++
      ((nameMatter? before ins).map (Remark.mk offset)).toList := by
  rcases kind_cases ins with hop | hop | ⟨n, hop⟩ | hordinary
  · simp only [Progress.add, hop] at hadd
    obtain rfl := Except.ok.inj hadd
    exact h.other (by simp [hop]) rfl rfl
  · simp only [Progress.add, hop, declare_matter h hop] at hadd
    obtain rfl := Except.ok.inj hadd
    refine ⟨h.marker hop rfl, ?_⟩
    rw [Array.toList_appendList, onNames_append, onNames_nameMatter]
  · simp only [Progress.add, hop] at hadd
    obtain rfl := Except.ok.inj hadd
    refine h.other (by simp [hop]) rfl ?_
    rw [Array.toList_push, onNames_append]
    exact List.append_nil _
  · have hop : ins.op ≠ .global := fun hop => by
      have := hordinary.1
      rw [hop] at this
      cases this
    rw [Progress.add_eq hordinary] at hadd
    split at hadd
    · obtain rfl := Except.ok.inj hadd
      exact h.other hop rfl rfl
    · cases hadd

theorem Knows.addAll (h : Knows before w) {xs : List (Instruction × Nat)}
    (hadd : xs.foldlM (fun w x => Progress.add c w x.1 x.2) w = .ok w') :
    Knows (before ++ xs.map Prod.fst) w' ∧
      onNames w'.remarks.toList = onNames w.remarks.toList ++ nameRemarksFrom before xs := by
  induction xs generalizing w before with
  | nil =>
      obtain rfl := foldlM_nil_ok_iff.1 hadd
      exact ⟨by simpa using h, by simp [nameRemarksFrom]⟩
  | cons x xs ih =>
      obtain ⟨r, hr, hadd⟩ := foldlM_cons_ok_iff.1 hadd
      obtain ⟨hknows, hremarks⟩ := h.add hr
      obtain ⟨hknows', hremarks'⟩ := ih hknows hadd
      refine ⟨by simpa using hknows', ?_⟩
      rw [hremarks', hremarks, List.append_assoc]
      rfl

theorem knows_empty : Knows [] {} := by
  intro name _
  simp

end Remarks

variable {p : Program} {s : Settings} {out : Output}

/-- **Which names are remarked on.** -/
theorem remarks_of_lower (h : lower p s = .ok out) :
    onNames out.remarks = nameRemarks p.instructions := by
  obtain ⟨⟨⟩, -, h⟩ := bind_ok_iff.1 h
  obtain ⟨fs, -, h⟩ := bind_ok_iff.1 h
  obtain ⟨w, hw, rfl⟩ := bind_pure_ok_iff.1 h
  exact (knows_empty.addAll hw).2

/-! ### The lines of a marker -/

section Lines

variable {c : Context} {w w' : Progress} {ins : Instruction} {offset : Nat}

/-- A marker becomes names and remarks. -/
theorem add_marker (hmarker : ins.op.isMarker = true) (h : w.add c ins offset = .ok w') :
    ∃ asides, (∀ l ∈ asides, l.isAside) ∧ w'.lines.toList = w.lines.toList ++ asides := by
  obtain ⟨ls, hlines, ⟨-, hasides⟩ | ⟨⟨n, hop⟩, -⟩ | ⟨hordinary, -⟩⟩ := Progress.add_lines h
  · exact ⟨ls, hasides, hlines⟩
  · rw [hop] at hmarker
    cases hmarker
  · rw [hordinary.1] at hmarker
    cases hmarker

/-- Behind markers the lines of an instruction follow, with names and remarks before them. -/
theorem written_behind {xs : List (Instruction × Nat)}
    (h : xs.foldlM (fun w x => Progress.add c w x.1 x.2) w = .ok w') {j : Nat}
    (hj : xs[j]? = some (ins, offset)) (hins : Ordinary ins)
    (hmarkers : ∀ k < j, ∀ x, xs[k]? = some x → x.1.op.isMarker = true) :
    ∃ asides ls behind, (∀ l ∈ asides, l.isAside) ∧ draft c offset ins = .ok ls ∧
      w'.lines.toList = w.lines.toList ++ (asides ++ (ls ++ behind)) := by
  induction xs generalizing w j with
  | nil => cases hj
  | cons x xs ih =>
      obtain ⟨r, hr, hrest⟩ := foldlM_cons_ok_iff.1 h
      cases j with
      | zero =>
          obtain rfl : x = (ins, offset) := Option.some.inj hj
          obtain ⟨ls, hls, hlines⟩ := Progress.add_ordinary hins hr
          obtain ⟨behind, hbehind⟩ := written_keeps hrest
          exact ⟨[], ls, behind, List.forall_mem_nil _, hls, by rw [hbehind, hlines]; simp⟩
      | succ j =>
          obtain ⟨asides, hasides, hlines⟩ := add_marker (hmarkers 0 (Nat.succ_pos j) x rfl) hr
          obtain ⟨asides', ls, behind, hasides', hls, hlines'⟩ :=
            ih hrest hj fun k hk x hx => hmarkers (k + 1) (Nat.succ_lt_succ hk) x hx
          refine ⟨asides ++ asides', ls, behind, ?_, hls, by rw [hlines', hlines]; simp⟩
          exact List.forall_mem_append.2 ⟨hasides, hasides'⟩

theorem add_name {before : List Instruction} (hknows : Knows before w) (hop : ins.op = .global)
    (hnone : nameMatter? before ins = none) (h : w.add c ins offset = .ok w') :
    w'.lines.toList =
      w.lines.toList ++ [.visible (.named ins.symbol), .label (.named ins.symbol)] := by
  simp only [Progress.add, hop] at h
  obtain rfl := Except.ok.inj h
  rw [Array.toList_appendList, declare_lines ((declare_matter hknows hop).trans hnone)]

end Lines

/-! ### The address of a name -/

/-- **A marker and the instruction behind it have one address.** -/
theorem name_of_marker {elide : Bool} {image : Assembly.Image} (hlower : lower p s = .ok out)
    (himage : Assembly.assemble elide (out.lines.map Line.render) = .ok image) {i j offset : Nat}
    {m ins : Instruction} (hm : p.instructions[i]? = some m) (hop : m.op = .global)
    (hi : (offsets p.instructions)[i]? = some offset)
    (hleads : Instruction.LeadsTo p.instructions i j) (hins : p.instructions[j]? = some ins)
    (hordinary : Ordinary ins) (hj : (offsets p.instructions)[j]? = some offset)
    (hnone : nameMatter? (p.instructions.take i) m = none) :
    ∃ a, image.labels[(Label.start offset).render]? = some a ∧
      ∀ name ∈ namedLabels m.symbol, image.labels[name]? = some a := by
  obtain ⟨fs, w, -, -, hw, -, hlines⟩ := lower_ok hlower
  -- the walk stops at the marker, and then at the instruction behind it
  have hzip : ∀ (k : Nat) (x : Instruction × Nat),
      (p.instructions.zip (offsets p.instructions))[k]? = some x ↔
        p.instructions[k]? = some x.1 ∧ (offsets p.instructions)[k]? = some x.2 :=
    fun k x => List.getElem?_zip_eq_some
  obtain ⟨hlt, hget⟩ := List.getElem?_eq_some_iff.1 ((hzip i (m, offset)).2 ⟨hm, hi⟩)
  rw [← List.take_append_drop i (p.instructions.zip _), List.drop_eq_getElem_cons hlt, hget] at hw
  obtain ⟨r, hr, hw⟩ := foldlM_append_ok_iff.1 hw
  obtain ⟨r', hr', hw⟩ := foldlM_cons_ok_iff.1 hw
  have hknows : Knows (p.instructions.take i) r := by
    have := (knows_empty.addAll hr).1
    rwa [List.nil_append, List.map_take, List.map_fst_zip (by simp)] at this
  have hname := add_name hknows hop hnone hr'
  have hbefore := hleads.before
  obtain ⟨asides, ls, behind, hasides, hls, hbehind⟩ := written_behind hw (j := j - (i + 1))
    (by rw [List.getElem?_drop, Nat.add_sub_cancel' hbefore, hzip]; exact ⟨hins, hj⟩) hordinary
    (by
      intro k hk x hx
      rw [List.getElem?_drop, hzip] at hx
      obtain ⟨m', hm', hmarker⟩ := hleads.markers (i + 1 + k) (by omega) (by omega)
      rwa [← Option.some.inj (hm'.symm.trans hx.1)])
  obtain ⟨ls', -, rfl⟩ := map_ok_iff.1 hls
  -- so the name, asides, and the label of the instruction stand behind each other
  obtain ⟨A, B, hsplit⟩ : ∃ A B, out.lines =
      A ++ .label (.named m.symbol) :: (asides ++ .place offset ins :: B) := by
    refine ⟨prologue ⟨Frame.ofProgram p s, fs⟩ s.stackTop ++ r.lines.toList ++
      [.visible (.named m.symbol)], ls' ++ behind ++
        (if needsExit fs p.instructions then epilogue else []), ?_⟩
    rw [hlines, hbehind, hname]
    simp
  have hlegible := (told_of_lower hlower).legible
  rw [hsplit] at hlegible
  obtain ⟨-, hlegible⟩ := List.forall_mem_append.1 hlegible
  obtain ⟨hlabel, hlegible⟩ := List.forall_mem_cons.1 hlegible
  obtain ⟨hlegible, -⟩ := List.forall_mem_append.1 hlegible
  have hlaid := Assembly.assemble_laid himage
  rw [hsplit, List.map_append, Assembly.laid_append] at hlaid
  obtain ⟨k, -, hlaid⟩ := hlaid
  obtain ⟨hnamed, hlaid⟩ := laid_legible hlabel hlaid
  have hplace := hlaid rfl
  rw [List.map_append] at hplace
  have hplace := laid_asides (fun l hl => ⟨hasides l hl, hlegible l hl⟩) hplace
  exact ⟨Assembly.addressOf k, (laid_place hplace).1, hnamed⟩

end Lowering.Mips

/-! ### Compiled programs -/

open Lowering (Frame Functions)
open Lowering.Mips (nameMatter? nameRemarks onNames Ordinary)

section Compiled

variable {code : List UInt8} {symbols : List Symbol} {s : Settings} {c : Compilation}

/-- What is worth a warning: symbols that have no place, and what lowering remarks on. -/
theorem compile_remarks (h : compile code symbols s = .ok c) :
    c.remarks = c.dropped.map (fun d => ⟨d.address.toNat, .dropped d⟩) ++ c.lowered.remarks := by
  obtain ⟨⟨⟩, -, h⟩ := bind_ok_iff.1 h
  obtain ⟨⟨f, list⟩, -, h⟩ := bind_ok_iff.1 h
  simp only at h
  split at h
  · cases h
  · obtain ⟨lowered, -, h⟩ := bind_ok_iff.1 h
    obtain ⟨image?, -, rfl⟩ := bind_pure_ok_iff.1 h
    rfl

/-- The remarks on names of a compilation are those of its program. -/
theorem onNames_compile (htarget : s.target = mipsTarget) (h : compile code symbols s = .ok c) :
    onNames c.remarks = nameRemarks c.program.instructions := by
  obtain ⟨-, -, -, out, -, hlowered, -, hlower, -⟩ := compile_parts htarget h
  have hdropped : onNames (c.dropped.map fun d => ⟨d.address.toNat, .dropped d⟩) = [] := by
    refine List.filter_eq_nil_iff.2 fun r hr => ?_
    obtain ⟨d, -, rfl⟩ := List.mem_map.1 hr
    exact of_decide_eq_false rfl
  rw [compile_remarks h, hlowered, Lowering.Mips.onNames_append, hdropped, List.nil_append]
  exact Lowering.Mips.remarks_of_lower hlower

/-- Behind a marker of a compiled program there is an instruction with the same offset. -/
theorem marker_leads (htarget : s.target = mipsTarget) (h : compile code symbols s = .ok c)
    {i offset : Nat} {m : Instruction} (hm : c.program.instructions[i]? = some m)
    (hmarker : m.op.isMarker = true) (hi : (offsets c.program.instructions)[i]? = some offset) :
    ∃ j ins, Instruction.LeadsTo c.program.instructions i j ∧
      c.program.instructions[j]? = some ins ∧ Ordinary ins ∧
      (offsets c.program.instructions)[j]? = some offset := by
  obtain ⟨-, hdecode, hprogram, -⟩ := compile_parts htarget h
  have hwidth := Code.width_pos_of_decode hdecode
  have hlist : c.program.instructions =
      (Symbol.place c.decoded symbols s.entryNames).instructions := by rw [hprogram]; rfl
  have hlast : ∀ ins, c.program.instructions.getLast? = some ins → ins.op.isMarker = false := by
    intro ins hins
    rw [hlist, Symbol.place_eq, Symbol.getLast?_placedFrom] at hins
    exact (Lowering.Mips.Placeable.ordinary (hwidth ins (List.mem_of_getLast? hins))).1
  obtain ⟨j, hleads, hj⟩ := Instruction.leadsTo_of_marker hlast hm hmarker hi
  obtain ⟨ins, hins, hstands⟩ := hleads.stands
  refine ⟨j, ins, hleads, hins, ?_, hj⟩
  have hmem := List.mem_of_getElem? hins
  rw [hlist] at hmem
  rcases Symbol.mem_place hmem with hmarker | hmem
  · rw [hstands] at hmarker
    cases hmarker
  · exact Lowering.Mips.Placeable.ordinary (hwidth ins hmem)

/-- **A name that is not remarked on is a label with the address of its instruction, unless it
starts with a point.**  In what a code section is compiled to, the remarks on names are one for
every visibility marker whose name can not be a label or was given before, in order.  Under the name
of any other marker the image has the address of the instruction behind the marker, and nothing if
the name starts with a point. -/
theorem exported_labels {code : List UInt8} {symbols : List Symbol} {s : Settings} {c : Compilation}
    (htarget : s.target = mipsTarget) (hc : compile code symbols s = .ok c) :
    ∃ image, c.image = some image ∧ onNames c.remarks = nameRemarks c.program.instructions ∧
      ∀ (i : Nat) (m : Instruction) (offset : Nat), c.program.instructions[i]? = some m →
        m.op = .global → (offsets c.program.instructions)[i]? = some offset →
        nameMatter? (c.program.instructions.take i) m = none →
        ∃ a, image.labels[(Listing.Label.start offset).render]? = some a ∧
          image.labels[m.symbol]? = if m.symbol.head? = some 46 then none else some a := by
  obtain ⟨-, -, -, out, image, -, himage, hlower, hassemble⟩ := compile_parts htarget hc
  refine ⟨image, himage, onNames_compile htarget hc, fun i m offset hm hop hi hnone => ?_⟩
  obtain ⟨j, ins, hleads, hins, hordinary, hj⟩ :=
    marker_leads htarget hc hm (by rw [hop]; rfl) hi
  obtain ⟨a, hstart, hnames⟩ := Lowering.Mips.name_of_marker hlower hassemble hm hop hi hleads hins
    hordinary hj hnone
  refine ⟨a, hstart, ?_⟩
  split
  · next hpoint =>
    exact Listing.labels_point (Lowering.Mips.told_of_lower hlower).legible hassemble hpoint
  · next hpoint =>
    refine hnames m.symbol ?_
    rw [Listing.namedLabels, if_neg hpoint]
    exact List.mem_singleton_self _

end Compiled

/-! ### Two names -/

/-- Prints seven, with a name for the instruction that prints. -/
def namedPrint (name : Text) : List Instruction :=
  [{ op := .iconst, operands := [7] }, { op := .global, symbol := name }, { op := .print }]

theorem compile_namedPrint (name : Text)
    (hplace : (Symbol.place printSeven [⟨name, 0, 1, true, 5⟩] defaultEntryNames).instructions =
      namedPrint name) :
    ∃ c, compile (text "KATS" ++ [2, 0, 0, 0, 1, 7, 0, 0, 0, 5]) [⟨name, 0, 1, true, 5⟩] {} =
        .ok c ∧ c.program.instructions = namedPrint name := by
  have hdecode : Code.decode (text "KATS" ++ [2, 0, 0, 0, 1, 7, 0, 0, 0, 5]) =
      .ok (.kats, printSeven) := by decide
  have hflow : Flow.searched (namedPrint name) =
      ⟨#[⟨⟨0, 1⟩, [1]⟩, ⟨⟨0, 0⟩, [2]⟩, ⟨⟨1, 0⟩, [3]⟩], [0, 1]⟩ := rfl
  have hdepth : Instruction.estimateDepth (namedPrint name) = 1 :=
    Flow.estimateDepth_of_within 20 (by rw [hflow]; decide +kernel)
  have hframe : Frame.ofProgram ⟨namedPrint name, Int64.ofNat 1⟩ {} = ⟨16, 80, 1, 88⟩ := by
    have hone : Frame.depthFor ⟨namedPrint name, Int64.ofNat 1⟩ {} = 1 :=
      (if_neg (by decide)).trans (if_pos (show Int64.ofNat 1 ≠ 0 by decide))
    rw [Frame.ofProgram, hone]
    decide
  obtain ⟨fs, hfs⟩ : ∃ fs, Functions.ofList (namedPrint name) true = .ok fs := ⟨_, rfl⟩
  obtain ⟨c, -, -, hc, -, hprogram, -⟩ :=
    compile_of_drafts hdecode (placed_of_deepest hplace hdepth) (by rw [hframe]; decide) hfs
      (List.forall_mem_cons.2 ⟨⟨_, rfl, of_decide_eq_true rfl⟩,
        List.forall_mem_cons.2 ⟨⟨_, rfl, of_decide_eq_true rfl⟩, List.forall_mem_singleton.2
          ⟨_, rfl, of_decide_eq_true rfl⟩⟩⟩) (of_decide_eq_true rfl)
  exact ⟨c, hc, by rw [hprogram]⟩

/-- A name is a label with the address of the instruction that it was given to. -/
theorem exported_labels_print :
    ∃ c image a, compile (text "KATS" ++ [2, 0, 0, 0, 1, 7, 0, 0, 0, 5])
        [⟨text "f", 0, 1, true, 5⟩] {} = .ok c ∧ c.image = some image ∧ onNames c.remarks = [] ∧
      image.labels[text "L5"]? = some a ∧ image.labels[text "f"]? = some a := by
  obtain ⟨c, hc, hprogram⟩ := compile_namedPrint (text "f") rfl
  obtain ⟨image, himage, hremarks, hlabels⟩ := exported_labels rfl hc
  rw [hprogram] at hremarks hlabels
  obtain ⟨a, hstart, hname⟩ := hlabels 1 _ 5 rfl rfl rfl (by decide)
  exact ⟨c, image, a, hc, himage, hremarks.trans (by decide), hstart, hname⟩

/-- **A name that is lost without a remark**: the symbol `.f` can be a label to lowering, and its
line is a directive to the assembler. -/
theorem exported_point :
    ∃ c image, compile (text "KATS" ++ [2, 0, 0, 0, 1, 7, 0, 0, 0, 5])
        [⟨text ".f", 0, 1, true, 5⟩] {} = .ok c ∧ c.image = some image ∧
      c.program.instructions[1]? = some { op := .global, symbol := text ".f" } ∧
      onNames c.remarks = [] ∧ image.labels[text ".f"]? = none := by
  obtain ⟨c, hc, hprogram⟩ := compile_namedPrint (text ".f") rfl
  obtain ⟨-, -, -, out, image, -, himage, hlower, hassemble⟩ := compile_parts rfl hc
  refine ⟨c, image, hc, himage, by rw [hprogram]; rfl, ?_, ?_⟩
  · rw [onNames_compile rfl hc, hprogram]
    decide
  · exact Listing.labels_point (Lowering.Mips.told_of_lower hlower).legible hassemble rfl

end StackCompiler
