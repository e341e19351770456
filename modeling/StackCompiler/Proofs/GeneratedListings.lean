/-
**What lowering generates can be assembled.**

A listing is put together from the lines of instructions, the names of visibility markers and what
stands around them.  Names of the program and labels of lowering share one space of texts, but they
do not meet: a name that could be taken for a label is not written as one, and a name is written
once.  Labels of instructions differ by their offsets, because an instruction has at least one byte.
So nothing is missing in a listing, and only the branch of a conditional jump can be too far from
its label.

* `Lowering.Mips.complete_of_lower` — **nothing is missing in a listing**;
* `assemble_generated` — **assembling it succeeds, or a conditional jump goes too far**.
-/

import StackCompiler.Compilation
import StackCompiler.Proofs.CodeSections
import StackCompiler.Proofs.GeneratedLines
import StackCompiler.Proofs.PlacedMarkers

namespace StackCompiler

open Listing
open Line (labels)

namespace Lowering.Mips

open Register (s0 sp fp)

/-! ### Lines that can stand in a listing -/

/-- Every branch is that of a conditional jump, or its label is defined at most 16383 lines away. -/
def Near (list : List Instruction) (ls : List Line) : Prop :=
  ∀ (i : Nat) (o : Operation) (s t : Register) (l : Label), ls[i]? = some (.branch o s t l) →
    (∃ ins ∈ list, (ins.op = .jmpz ∨ ins.op = .jmpnz) ∧ Line.branch o s t l = jumpLine ins) ∨
      ∃ (j : Nat) (other : Line), ls[j]? = some other ∧ l.render ∈ other.labels ∧
        i < j + 16384 ∧ j < i + 16384

/-- Lines that are read and take their operands, whose labels are their own or of a kind, and whose
branches are near. -/
structure Chunk (list : List Instruction) (K : Label → Prop) (ls : List Line) : Prop where
  sound : ∀ l ∈ ls, l.Readable ∧ l.Formed
  known : ∀ l ∈ ls.flatMap Line.uses, l.render ∈ ls.flatMap labels ∨ K l
  near : Near list ls

section Chunk

variable {list : List Instruction} {K : Label → Prop} {xs ys : List Line}

theorem Near.append (hx : Near list xs) (hy : Near list ys) : Near list (xs ++ ys) := by
  intro i o s t l hi
  rcases Nat.lt_or_ge i xs.length with hlt | hge
  · rw [List.getElem?_append_left hlt] at hi
    refine (hx i o s t l hi).imp_right ?_
    rintro ⟨j, other, hj, hname, hnear⟩
    obtain ⟨hlt', -⟩ := List.getElem?_eq_some_iff.1 hj
    exact ⟨j, other, by rw [List.getElem?_append_left hlt', hj], hname, hnear⟩
  · rw [List.getElem?_append_right hge] at hi
    refine (hy _ o s t l hi).imp_right ?_
    rintro ⟨j, other, hj, hname, hbefore, hbehind⟩
    refine ⟨xs.length + j, other, ?_, hname, by omega, by omega⟩
    rw [List.getElem?_append_right (Nat.le_add_right _ _), Nat.add_sub_cancel_left, hj]

theorem near_of_short (hshort : xs.length < 16384)
    (h : ∀ o s t l, .branch o s t l ∈ xs → l.render ∈ xs.flatMap labels) : Near list xs := by
  intro i o s t l hi
  obtain ⟨other, hother, hname⟩ := List.mem_flatMap.1 (h o s t l (List.mem_of_getElem? hi))
  obtain ⟨j, hj⟩ := List.mem_iff_getElem?.1 hother
  obtain ⟨hi', -⟩ := List.getElem?_eq_some_iff.1 hi
  obtain ⟨hj', -⟩ := List.getElem?_eq_some_iff.1 hj
  exact Or.inr ⟨j, other, hj, hname, by omega, by omega⟩

theorem Chunk.append (hx : Chunk list K xs) (hy : Chunk list K ys) : Chunk list K (xs ++ ys) := by
  refine ⟨List.forall_mem_append.2 ⟨hx.sound, hy.sound⟩, ?_, hx.near.append hy.near⟩
  intro l hl
  rw [List.flatMap_append, List.mem_append] at hl
  rw [List.flatMap_append, List.mem_append]
  rcases hl with hl | hl
  · exact (hx.known l hl).imp_left Or.inl
  · exact (hy.known l hl).imp_left Or.inr

theorem chunk_of_silent (h : ∀ l ∈ xs, l.Readable ∧ l.written = none) : Chunk list K xs := by
  have hsilent : ∀ l ∈ xs, l.Formed ∧ l.uses = [] := by
    intro l hl
    obtain ⟨-, hwritten⟩ := h l hl
    cases l with
    | code m os => cases hwritten
    | _ => exact ⟨trivial, rfl⟩
  refine ⟨fun l hl => ⟨(h l hl).1, (hsilent l hl).1⟩, ?_, ?_⟩
  · rw [List.flatMap_eq_nil_iff.2 fun l hl => (hsilent l hl).2]
    exact List.forall_mem_nil _
  · intro i o s t l hi
    have hnone := (h _ (List.mem_of_getElem? hi)).2
    cases hnone

theorem labels_of_plain (h : ∀ l ∈ xs, l.Plain) :
    xs.flatMap labels = (xs.flatMap Line.defines).map Label.render := by
  rw [List.map_flatMap]
  exact List.flatMap_congr fun l hl => (h l hl).labels_eq

theorem nodup_render {ds : List Label} (h : ds.Nodup) (hmade : ∀ d ∈ ds, d.isMade) :
    (ds.map Label.render).Nodup := by
  refine List.pairwise_map.2 (h.imp_of_mem ?_)
  intro d d' hd hd' hne heq
  exact hne (Label.render_inj (hmade d hd) (hmade d' hd') heq)

end Chunk

/-- The labels of other instructions. -/
def isEntered (fs : Functions) (l : Label) : Prop :=
  ∃ target : Nat, l = .start target ∧ fs.startsAt target

section Body

variable {c : Context} {offset : Nat} {ins : Instruction} {ls : List Line}

theorem Body.isMade (h : Body c offset ins ls) : ∀ d ∈ ls.flatMap Line.defines, d.isMade :=
  fun d hd => Label.isMade_of_offset? (h.own d hd)

theorem Body.labels_eq (h : Body c offset ins ls) :
    ls.flatMap labels = (ls.flatMap Line.defines).map Label.render :=
  labels_of_plain fun l hl => (h.sound l hl).1

theorem Body.nodup_labels (h : Body c offset ins ls) : (ls.flatMap labels).Nodup := by
  rw [h.labels_eq]
  exact nodup_render h.once h.isMade

theorem Body.chunk (h : Body c offset ins ls) {list : List Instruction} (hins : ins ∈ list) :
    Chunk list (isEntered c.functions) ls := by
  refine ⟨fun l hl => ⟨(h.sound l hl).1.readable, (h.sound l hl).2⟩, ?_, ?_⟩
  · intro l hl
    rw [h.labels_eq]
    exact (h.known l hl).imp_left fun hmem => List.mem_map_of_mem hmem
  · intro i o s t l hi
    rcases h.near o s t l (List.mem_of_getElem? hi) with ⟨hop, hline⟩ | ⟨hmem, hshort⟩
    · exact Or.inl ⟨ins, hins, hop, hline⟩
    · -- the lines of an instruction that is no conditional jump are few
      obtain ⟨other, hother, hl⟩ := List.mem_flatMap.1 hmem
      obtain ⟨j, hj⟩ := List.mem_iff_getElem?.1 hother
      obtain ⟨hi', -⟩ := List.getElem?_eq_some_iff.1 hi
      obtain ⟨hj', -⟩ := List.getElem?_eq_some_iff.1 hj
      refine Or.inr ⟨j, other, hj, ?_, by omega, by omega⟩
      rw [(h.sound other hother).1.labels_eq]
      exact List.mem_map_of_mem hl

end Body

/-! ### A listing while it is written -/

/-- A listing with the lines of all instructions before an offset.  Its labels are names of the
program, or belong to one of these instructions. -/
structure Tidy (c : Context) (list : List Instruction) (n : Nat) (p : Progress) : Prop where
  chunk : Chunk list (isEntered c.functions) p.lines.toList
  once : (p.lines.toList.flatMap labels).Nodup
  origin : ∀ t ∈ p.lines.toList.flatMap labels, t ∈ p.names ∨
    ∃ (l : Label) (offset : Nat), l.offset? = some offset ∧ offset < n ∧ t = l.render
  foreign : ∀ t ∈ p.names, isReserved t = false

/-- An instruction that lowering can be given: a marker, or one with bytes. -/
def Placeable (ins : Instruction) : Prop := ins.op.isMarker = true ∨ 0 < ins.width

theorem Placeable.ordinary {ins : Instruction} (h : 0 < ins.width) : Ordinary ins :=
  ordinary_of_op rfl (Nat.ne_of_gt h)

section Tidy

variable {c : Context} {list : List Instruction} {n offset : Nat} {p q : Progress}
  {ins : Instruction} {L D S : Nat}

theorem tidy_empty : Tidy c list 0 {} :=
  ⟨chunk_of_silent (List.forall_mem_nil _), List.nodup_nil, List.forall_mem_nil _,
    List.forall_mem_nil _⟩

section

variable (hp : Tidy c list n p)

include hp

theorem Tidy.mono (hn : n ≤ offset) : Tidy c list offset p := by
  refine ⟨hp.chunk, hp.once, fun t ht => (hp.origin t ht).imp_right ?_, hp.foreign⟩
  rintro ⟨l, o, hl, ho, rfl⟩
  exact ⟨l, o, hl, Nat.lt_of_lt_of_le ho hn, rfl⟩

theorem Tidy.comment {body : Text}
    (hlines : q.lines.toList = p.lines.toList ++ [.comment body]) (hnames : q.names = p.names) :
    Tidy c list n q := by
  have hflat : q.lines.toList.flatMap labels = p.lines.toList.flatMap labels := by
    rw [hlines, List.flatMap_append]
    exact List.append_nil _
  constructor
  case chunk =>
    rw [hlines]
    exact hp.chunk.append (chunk_of_silent (List.forall_mem_singleton.2 ⟨trivial, rfl⟩))
  case once => rw [hflat]; exact hp.once
  case origin => rw [hflat, hnames]; exact hp.origin
  case foreign => rw [hnames]; exact hp.foreign

theorem Tidy.name {name : Text} (hid : Text.isIdentifier name)
    (hreserved : isReserved name = false) (hnew : name ∉ p.names)
    (hlines : q.lines.toList = p.lines.toList ++ [.visible (.named name), .label (.named name)])
    (hnames : q.names = name :: p.names) : Tidy c list n q := by
  have hflat : q.lines.toList.flatMap labels =
      p.lines.toList.flatMap labels ++ namedLabels name := by
    rw [hlines, List.flatMap_append]
    simp [labels, Line.defines]
  have hnamed : ∀ t ∈ namedLabels name, t = name := by
    intro t ht
    unfold namedLabels at ht
    split at ht
    · cases ht
    · exact List.mem_singleton.1 ht
  constructor
  case chunk =>
    rw [hlines]
    refine hp.chunk.append (chunk_of_silent ?_)
    have hforeign : ∀ l : Label, l.isMade → l.render ≠ name := by
      rintro l hl rfl
      rw [isReserved_render hl] at hreserved
      cases hreserved
    exact List.forall_mem_cons.2 ⟨⟨trivial, rfl⟩,
      List.forall_mem_singleton.2 ⟨⟨hid, hforeign⟩, rfl⟩⟩
  case once =>
    rw [hflat, List.nodup_append]
    refine ⟨hp.once, Line.nodup_labels (.label (.named name)), ?_⟩
    rintro t ht t' ht' rfl
    obtain rfl := hnamed t ht'
    -- the name is not among the names, and a label of lowering is reserved
    rcases hp.origin t ht with hmem | ⟨l, o, hl, -, rfl⟩
    · exact hnew hmem
    · rw [isReserved_render (Label.isMade_of_offset? hl)] at hreserved
      cases hreserved
  case origin =>
    rw [hflat, hnames]
    intro t ht
    rcases List.mem_append.1 ht with ht | ht
    · exact (hp.origin t ht).imp_left (List.mem_cons_of_mem _)
    · rw [hnamed t ht]
      exact Or.inl List.mem_cons_self
  case foreign =>
    rw [hnames]
    exact List.forall_mem_cons.2 ⟨hreserved, hp.foreign⟩

/-- The lines of an instruction behind all offsets so far. -/
theorem Tidy.body {ls : List Line} (h : Body c offset ins ls)
    (hins : ins ∈ list) (hn : n ≤ offset) (hwidth : 0 < ins.width)
    (hlines : q.lines.toList = p.lines.toList ++ ls) (hnames : q.names = p.names) :
    Tidy c list (offset + ins.width) q := by
  have hflat : q.lines.toList.flatMap labels =
      p.lines.toList.flatMap labels ++ ls.flatMap labels := by
    rw [hlines, List.flatMap_append]
  have hown : ∀ t ∈ ls.flatMap labels, ∃ l : Label, l.offset? = some offset ∧ t = l.render := by
    rw [h.labels_eq]
    intro t ht
    obtain ⟨d, hd, rfl⟩ := List.mem_map.1 ht
    exact ⟨d, h.own d hd, rfl⟩
  constructor
  case chunk =>
    rw [hlines]
    exact hp.chunk.append (h.chunk hins)
  case once =>
    rw [hflat, List.nodup_append]
    refine ⟨hp.once, h.nodup_labels, ?_⟩
    rintro t ht t' ht' rfl
    obtain ⟨d, hd, rfl⟩ := hown t ht'
    rcases hp.origin _ ht with hmem | ⟨l, o, hl, ho, heq⟩
    · have hforeign := hp.foreign _ hmem
      rw [isReserved_render (Label.isMade_of_offset? hd)] at hforeign
      cases hforeign
    · -- two instructions with bytes have different offsets
      obtain rfl := Label.render_inj (Label.isMade_of_offset? hd) (Label.isMade_of_offset? hl) heq
      obtain rfl := Option.some.inj (hl.symm.trans hd)
      omega
  case origin =>
    rw [hflat, hnames]
    intro t ht
    rcases List.mem_append.1 ht with ht | ht
    · refine (hp.origin t ht).imp_right ?_
      rintro ⟨l, o, hl, ho, rfl⟩
      exact ⟨l, o, hl, by omega, rfl⟩
    · obtain ⟨d, hd, rfl⟩ := hown t ht
      exact Or.inr ⟨d, offset, hd, by omega, rfl⟩
  case foreign =>
    rw [hnames]
    exact hp.foreign

/-- **One instruction keeps a listing tidy.** -/
theorem Tidy.add (hf : c.frame.Shape L D S) (hins : ins ∈ list)
    (hn : n ≤ offset) (hplaceable : Placeable ins) (h : p.add c ins offset = .ok q) :
    Tidy c list (offset + ins.width) q := by
  rcases hplaceable with hmarker | hwidth
  · refine (?_ : Tidy c list n q).mono (Nat.le_trans hn (Nat.le_add_right _ _))
    have hop : ins.op = .entry ∨ ins.op = .global := by
      cases hop : ins.op with
      | entry => exact Or.inl rfl
      | global => exact Or.inr rfl
      | _ =>
          rw [hop] at hmarker
          cases hmarker
    rcases hop with hop | hop
    · simp only [Progress.add, hop] at h
      obtain rfl := Except.ok.inj h
      exact hp.comment Array.toList_push rfl
    · simp only [Progress.add, hop] at h
      obtain rfl := Except.ok.inj h
      unfold declare
      split
      · exact hp.comment Array.toList_appendList rfl
      · next husable =>
        simp only [Bool.or_eq_true, Bool.not_eq_true', not_or, Bool.not_eq_false,
          Bool.not_eq_true] at husable
        split
        · exact hp.comment Array.toList_appendList rfl
        · next hnew =>
          exact hp.name husable.1 husable.2 (by simpa using hnew) Array.toList_appendList rfl
  · rw [Progress.add_eq (Placeable.ordinary hwidth)] at h
    split at h
    · next ls hls =>
      obtain rfl := Except.ok.inj h
      exact hp.body (body_of_draft hf hls) hins hn hwidth Array.toList_appendList rfl
    · cases h

/-- **All instructions keep a listing tidy**, each at its offset. -/
theorem Tidy.addAll (hf : c.frame.Shape L D S) {later : List Instruction}
    (hlater : ∀ ins ∈ later, ins ∈ list ∧ Placeable ins)
    (h : (later.zip (Instruction.offsetsFrom n later)).foldlM
      (fun w x => Progress.add c w x.1 x.2) p = .ok q) :
    Tidy c list (n + Instruction.totalSize later) q := by
  induction later generalizing n p with
  | nil =>
      obtain rfl := foldlM_nil_ok_iff.1 h
      exact hp
  | cons ins later ih =>
      obtain ⟨⟨hins, hplaceable⟩, hlater⟩ := List.forall_mem_cons.1 hlater
      rw [Instruction.offsetsFrom, List.zip_cons_cons] at h
      obtain ⟨r, hr, hq⟩ := foldlM_cons_ok_iff.1 h
      rw [Instruction.totalSize_cons, ← Nat.add_assoc]
      exact ih (hp.add hf hins (Nat.le_refl n) hplaceable hr) hlater hq

end

end Tidy

/-! ### The whole listing -/

/-- The labels that the lines of a listing may use. -/
def isTarget (fs : Functions) (l : Label) : Prop :=
  isEntered fs l ∨ l = .exit ∧ entryLabel fs = .exit

section Listing

variable {c : Context} {list : List Instruction} {L D S : Nat}

theorem Chunk.mono {K K' : Label → Prop} {ls : List Line} (h : Chunk list K ls)
    (hK : ∀ l, K l → K' l) : Chunk list K' ls :=
  ⟨h.sound, fun l hl => (h.known l hl).imp_right (hK l), h.near⟩

theorem isMade_entryLabel (fs : Functions) : (entryLabel fs).isMade := by
  unfold entryLabel
  split <;> rfl

theorem isTarget_entryLabel (fs : Functions) : isTarget fs (entryLabel fs) := by
  unfold isTarget entryLabel
  split
  · next hstarts => exact Or.inl ⟨fs.entry, rfl, hstarts⟩
  · exact Or.inr ⟨rfl, rfl⟩

theorem chunk_prologue (hf : c.frame.Shape L D S) (stackTop : UInt32) :
    Chunk list (isTarget c.functions) (prologue c stackTop) := by
  have hsize := hf.size_neg
  have hsmall := hf.small
  have hbase := hf.base
  have hslots := hf.slots_le
  have hframe : (Line.immediate .addiu sp sp (-c.frame.size).toInt).Quiet :=
    quiet_immediate (by decide) (by decide) (by decide) (by omega) (by omega)
  have hpointer : (Line.immediate .addiu s0 fp c.frame.base.toInt).Quiet :=
    quiet_immediate (by decide) (by decide) (by decide) (by omega) (by omega)
  constructor
  case sound =>
    simp only [prologue, enterFrame, List.cons_append, List.nil_append, List.forall_mem_cons]
    refine ⟨⟨trivial, trivial⟩, ⟨trivial, trivial⟩, ⟨rfl, trivial⟩, ⟨?_, rfl⟩,
      ⟨hframe.plain.readable, hframe.formed⟩, ?_, ⟨hpointer.plain.readable, hpointer.formed⟩, ?_,
      ⟨(sound_jump (isMade_entryLabel _)).1, rfl⟩, List.forall_mem_nil _⟩
    · exact List.forall_mem_cons.2 ⟨by decide, List.forall_mem_singleton.2 trivial⟩
    iterate 2 · exact ⟨(show Line.Plain _ by decide).readable, by decide⟩
  case known =>
    exact List.forall_mem_singleton.2 (Or.inr (isTarget_entryLabel c.functions))
  case near =>
    refine near_of_short (by simp [prologue, enterFrame]) ?_
    intro o s t l hl
    simp [prologue, enterFrame, Line.branch, Line.immediate, Line.move, Line.jump] at hl

theorem chunk_epilogue {K : Label → Prop} : Chunk list K epilogue := by
  have hsound := sound_exitLines (l := .exitStatus) rfl
  constructor
  case sound =>
    refine List.forall_mem_cons.2 ⟨⟨rfl, trivial⟩, fun l hl => ?_⟩
    exact ⟨(hsound l hl).1.readable, (hsound l hl).2⟩
  case known => exact List.forall_mem_singleton.2 (Or.inl (by decide))
  case near =>
    refine near_of_short (by decide) ?_
    intro o s t l hl
    rcases List.mem_cons.1 hl with hl | hl
    · cases hl
    · rw [branch_of_exitLines hl]
      decide

/-- A label around the instructions is none of theirs. -/
theorem Tidy.apart {n : Nat} {w : Progress} (h : Tidy c list n w) {l : Label} (hl : l.isMade)
    (hnone : l.offset? = none) : l.render ∉ w.lines.toList.flatMap labels := by
  intro hmem
  rcases h.origin _ hmem with hname | ⟨d, o, hd, -, heq⟩
  · have hforeign := h.foreign _ hname
    rw [isReserved_render hl] at hforeign
    cases hforeign
  · obtain rfl := Label.render_inj hl (Label.isMade_of_offset? hd) heq
    rw [hnone] at hd
    cases hd

variable {p : Program} {s : Settings} {out : Output}

/-- **Nothing is missing in a listing**, and its branches are those of conditional jumps or near
their labels. -/
theorem complete_of_lower (hf : (Frame.ofProgram p s).Shape L D S)
    (hp : ∀ ins ∈ p.instructions, Placeable ins) (h : lower p s = .ok out) :
    Complete out.lines ∧ Near p.instructions out.lines := by
  obtain ⟨fs, w, -, hfs, hw, -, hlines⟩ := lower_ok h
  have htidy := tidy_empty.addAll (c := ⟨Frame.ofProgram p s, fs⟩) hf
    (fun ins hins => ⟨hins, hp ins hins⟩) hw
  have hchunk : Chunk p.instructions (isTarget fs) out.lines := by
    rw [hlines]
    refine ((chunk_prologue hf s.stackTop).append (htidy.chunk.mono fun _ => Or.inl)).append ?_
    split
    · exact chunk_epilogue
    · exact chunk_of_silent (List.forall_mem_nil _)
  have hlabels : out.lines.flatMap labels = [Label.main.render] ++
      w.lines.toList.flatMap labels ++
      (if needsExit fs p.instructions then [Label.exit.render, Label.exitStatus.render]
        else []) := by
    rw [hlines, List.flatMap_append, List.flatMap_append]
    congr 1
    split <;> rfl
  refine ⟨⟨fun l hl => (hchunk.sound l hl).1, fun l hl => (hchunk.sound l hl).2, ?_, ?_⟩,
    hchunk.near⟩
  · -- the labels around the instructions differ from theirs and from each other
    have hmain := htidy.apart (l := .main) rfl rfl
    have hexit := htidy.apart (l := .exit) rfl rfl
    have hstatus := htidy.apart (l := .exitStatus) rfl rfl
    rw [hlabels, List.append_assoc, List.singleton_append, List.nodup_cons, List.nodup_append]
    refine ⟨?_, htidy.once, ?_, ?_⟩
    · rw [List.mem_append, not_or]
      refine ⟨hmain, ?_⟩
      split <;> decide
    · split <;> decide
    · rintro t ht t' ht' rfl
      split at ht'
      · rcases List.mem_pair.1 ht' with rfl | rfl
        · exact hexit ht
        · exact hstatus ht
      · cases ht'
  · intro l hl
    rcases hchunk.known l hl with hown | ⟨target, rfl, hstarts⟩ | ⟨rfl, hentry⟩
    · exact hown
    · -- the instruction that starts there has a label
      have hcontains : fs.boundaries.contains target = true := hstarts
      rw [Functions.boundaries_of_ofList hfs, Functions.contains_boundariesOf] at hcontains
      obtain ⟨⟨ins, offset⟩, hmem, hx⟩ := List.any_eq_true.1 hcontains
      simp only [Bool.and_eq_true, Bool.not_eq_true', beq_iff_eq] at hx
      obtain ⟨hmarker, rfl⟩ := hx
      have hwidth : 0 < ins.width := by
        rcases hp ins (List.of_mem_zip hmem).1 with hplace | hplace
        · rw [hmarker] at hplace
          cases hplace
        · exact hplace
      obtain ⟨ls, before, behind, hdraft, hsplit⟩ :=
        written_instruction hw hmem (Placeable.ordinary hwidth)
      have hstart : .place offset ins ∈ w.lines.toList := by
        rw [hsplit]
        simp [(body_of_draft (c := ⟨Frame.ofProgram p s, fs⟩) hf hdraft).start]
      rw [hlabels]
      exact List.mem_append_left _ (List.mem_append_right _
        (List.mem_flatMap.2 ⟨_, hstart, List.mem_cons_self⟩))
    · rw [hlabels, show needsExit fs p.instructions = true by simp [needsExit, hentry]]
      simp

end Listing

end Lowering.Mips

/-! ### Programs of code sections -/

open Lowering (Frame)
open Lowering.Mips (Placeable Near jumpLine)

/-- The frames of a program whose depth is in range. -/
theorem shape_of_lower {p : Program} {s : Settings} {out : Lowering.Mips.Output}
    (hs : s.validate = .ok ()) (hdepth : s.stackDepth.toInt < 2 ^ 60)
    (hmax : 0 ≤ p.maxDepth.toInt ∧ p.maxDepth.toInt < 2 ^ 60)
    (hlower : Lowering.Mips.lower p s = .ok out) : ∃ L D S, (Frame.ofProgram p s).Shape L D S := by
  obtain ⟨-, -, hcheck, -⟩ := Lowering.Mips.lower_ok hlower
  refine Frame.shape_ofProgram hs ?_ (Frame.depthFor_lt hdepth fun _ => hmax.2) hcheck
  unfold Frame.depthFor
  split
  · exact Frame.validate_depth hs
  · split
    · exact hmax.1
    · exact (Frame.estimate_range p.instructions).1

theorem assembles_short {p : Program} {out : Lowering.Mips.Output}
    (hmax : 0 ≤ p.maxDepth.toInt ∧ p.maxDepth.toInt < 2 ^ 60)
    (hp : ∀ ins ∈ p.instructions, Placeable ins) (hlower : Lowering.Mips.lower p {} = .ok out)
    (hshort : out.lines.length < 16384) :
    ∃ image, Assembly.assemble true (out.lines.map Line.render) = .ok image := by
  obtain ⟨L, D, S, hf⟩ := shape_of_lower (by decide) (by decide) hmax hlower
  obtain ⟨image, himage, -⟩ :=
    (Lowering.Mips.complete_of_lower hf hp hlower).1.assembles hshort true
  exact ⟨image, himage⟩

/-- **What is generated can be assembled.**  The program of a code section and any symbols is
lowered to a listing that is assembled, unless a branch does not reach its label; and if the listing
is no longer than the addresses of the machine allow, this is the branch of a conditional jump.
Beyond them a branch of any instruction can lie across the last address, and is turned down there:
a distance is the difference of two addresses, which does not wrap around. -/
theorem assemble_generated {code : List UInt8} {f : Format} {list : List Instruction}
    (hdecode : Code.decode code = .ok (f, list)) (symbols : List Symbol) {s : Settings}
    (hs : s.validate = .ok ()) (hdepth : s.stackDepth.toInt < 2 ^ 60) {p : Program}
    (hp : p.instructions = (Symbol.place list symbols s.entryNames).instructions)
    (hmax : 0 ≤ p.maxDepth.toInt ∧ p.maxDepth.toInt < 2 ^ 60) {out : Lowering.Mips.Output}
    (hlower : Lowering.Mips.lower p s = .ok out) (elide : Bool) :
    (∃ image, Assembly.assemble elide (out.lines.map Line.render) = .ok image) ∨
      ∃ i o r t l d, TurnedDown elide out.lines i o r t l d ∧ (out.lines.length < 2 ^ 28 →
        ∃ ins ∈ list, (ins.op = .jmpz ∨ ins.op = .jmpnz) ∧ Line.branch o r t l = jumpLine ins) := by
  obtain ⟨L, D, S, hf⟩ := shape_of_lower hs hdepth hmax hlower
  have hwidths := Code.width_pos_of_decode hdecode
  have hplaceable : ∀ ins ∈ p.instructions, Placeable ins := by
    rw [hp]
    exact fun ins hins => (Symbol.mem_place hins).imp_right (hwidths ins)
  obtain ⟨hcomplete, hnear⟩ := Lowering.Mips.complete_of_lower hf hplaceable hlower
  rcases hcomplete.outcome elide with ⟨image, himage, -⟩ | ⟨i, o, r, t, l, d, hdown⟩
  · exact Or.inl ⟨image, himage⟩
  · refine Or.inr ⟨i, o, r, t, l, d, hdown, fun hshort => ?_⟩
    rcases hnear i o r t l hdown.line with ⟨ins, hins, hop, hline⟩ | ⟨j, other, hj, hname, hlt, hgt⟩
    · rw [hp] at hins
      refine ⟨ins, (Symbol.mem_place hins).resolve_left ?_, hop, hline⟩
      rcases hop with hop | hop <;> rw [hop] <;> decide
    · -- a label that is near is reached
      have := hdown.apart hshort j other hj hname
      omega

/-- A program that prints a number. -/
def printSeven : List Instruction := [{ op := .iconst, operands := [7] }, { op := .print }]

/-- An entry, a name that stands twice, and a name that could be taken for a label. -/
def namesTable : List Symbol :=
  [⟨text "main", 0, 0, true, 0⟩, ⟨text "f", 0, 1, true, 5⟩, ⟨text "L5", 0, 1, true, 5⟩,
    ⟨text "f", 0, 1, true, 0⟩]

theorem assemble_generated_namesTable :
    let code := text "KATS" ++ [2, 0, 0, 0, 1, 7, 0, 0, 0, 5]
    let s : Settings := { stackDepth := 4 }
    let p := (Compilation.placed printSeven namesTable s).1
    Code.decode code = .ok (.kats, printSeven) ∧ s.validate = .ok () ∧
      ∃ out, Lowering.Mips.lower p s = .ok out ∧
        ((∃ image, Assembly.assemble true (out.lines.map Line.render) = .ok image) ∨
          ∃ i o r t l d, TurnedDown true out.lines i o r t l d ∧ (out.lines.length < 2 ^ 28 →
            ∃ ins ∈ printSeven, (ins.op = .jmpz ∨ ins.op = .jmpnz) ∧
              Line.branch o r t l = jumpLine ins)) := by
  intro code s p
  have hdecode : Code.decode code = .ok (.kats, printSeven) := by decide
  have hs : s.validate = .ok () := by decide
  obtain ⟨fs, hfs⟩ : ∃ fs, Lowering.Functions.ofList p.instructions true = .ok fs := ⟨_, rfl⟩
  obtain ⟨w, hw⟩ : ∃ w, (p.instructions.zip (Instruction.offsets p.instructions)).foldlM
      (fun w x => Lowering.Mips.Progress.add ⟨Frame.ofProgram p s, fs⟩ w x.1 x.2) {} = .ok w :=
    ⟨_, rfl⟩
  have hcheck : (Frame.ofProgram p s).check = .ok () := by decide
  obtain ⟨out, hout, -⟩ := Lowering.Mips.lower_of_parts hcheck hfs hw
  exact ⟨hdecode, hs, out, hout, assemble_generated hdecode namesTable hs (by decide) rfl
    (by decide) hout true⟩

end StackCompiler
