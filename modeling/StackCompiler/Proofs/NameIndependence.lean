/-
**Names do not reach the machine.**

What a marker is called is written into a listing as a remark or as a label of its own, and nothing
refers to it.  So programs that only differ in the names of markers are lowered to listings that
only differ in names and remarks, or are refused for the same reason; and such listings are
assembled to the same words.  Nothing is asked of the settings, of the names, or of the
instructions.

* `Lowering.Mips.assemble_renamed` — **names do not change the words of a program**.
-/

import StackCompiler.Proofs.DraftedLines
import StackCompiler.Proofs.GeneratedListings

namespace StackCompiler

open Instruction (offsets op_unnamed unnamed unnamedAt unnamed_of_not_marker)

namespace Listing

/-! ### Lines without names of the program -/

variable {l : Line} {lines lines' : List Line}

theorem Line.legible_of_own (h : l.own) : l.Legible := by
  cases l with
  | label l =>
      cases l with
      | named name => cases h
      | _ => exact trivial
  | code m os => exact List.all_eq_true.1 h
  | _ => exact trivial

theorem Line.not_isAside_of_own (h : l.own) : l.isAside = false := by
  cases l with
  | label l =>
      cases l with
      | named name => cases h
      | _ => rfl
  | visible _ | comment _ => cases h
  | _ => rfl

theorem foreignLabels_append :
    foreignLabels (lines ++ lines') = foreignLabels lines ++ foreignLabels lines' := by
  rw [foreignLabels, List.filter_append, List.flatMap_append]
  rfl

theorem foreignLabels_of_own (h : ∀ l ∈ lines, l.own) : foreignLabels lines = [] := by
  rw [foreignLabels,
    List.filter_eq_nil_iff.2 fun l hl => by simp [Line.not_isAside_of_own (h l hl)]]
  rfl

end Listing

namespace Lowering

open Listing

namespace Mips

/-! ### Names are told apart -/

/-- A listing while it is written: its lines are taken apart, and its foreign labels are the names
that were written, each of them once. -/
structure Apart (w : Progress) : Prop where
  told : Told w.lines.toList
  known : ∀ t ∈ foreignLabels w.lines.toList, t ∈ w.names

theorem apart_empty : Apart {} := ⟨⟨List.forall_mem_nil _, List.nodup_nil⟩, List.forall_mem_nil _⟩

section Apart

variable {c : Context} {w w' : Progress} {ins : Instruction} {offset : Nat}

theorem Apart.lines (h : Apart w) {ls : List Line} (hls : ∀ l ∈ ls, l.Legible)
    (hnone : foreignLabels ls = []) (hlines : w'.lines.toList = w.lines.toList ++ ls)
    (hnames : w'.names = w.names) : Apart w' := by
  have hflat : foreignLabels w'.lines.toList = foreignLabels w.lines.toList := by
    rw [hlines, foreignLabels_append, hnone, List.append_nil]
  refine ⟨⟨?_, hflat ▸ h.told.once⟩, by rw [hflat, hnames]; exact h.known⟩
  rw [hlines]
  exact List.forall_mem_append.2 ⟨h.told.legible, hls⟩

theorem Apart.name (h : Apart w) {name : Text} (hforeign : IsForeign name) (hnew : name ∉ w.names)
    (hlines : w'.lines.toList = w.lines.toList ++ [.visible (.named name), .label (.named name)])
    (hnames : w'.names = name :: w.names) : Apart w' := by
  have hflat : foreignLabels w'.lines.toList =
      foreignLabels w.lines.toList ++ namedLabels name := by
    rw [hlines, foreignLabels_append]
    exact congrArg _ (List.append_nil _)
  have hname : ∀ t ∈ namedLabels name, t = name := by
    unfold namedLabels
    split <;> simp
  refine ⟨⟨?_, ?_⟩, ?_⟩
  · rw [hlines]
    exact List.forall_mem_append.2 ⟨h.told.legible,
      List.forall_mem_cons.2 ⟨trivial, List.forall_mem_singleton.2 hforeign⟩⟩
  · rw [hflat, List.nodup_append]
    refine ⟨h.told.once, Line.nodup_labels (.label (.named name)), ?_⟩
    rintro t ht _ ht' rfl
    exact hnew (hname t ht' ▸ h.known t ht)
  · rw [hflat, hnames, List.forall_mem_append]
    exact ⟨fun t ht => List.mem_cons_of_mem _ (h.known t ht),
      fun t ht => hname t ht ▸ List.mem_cons_self⟩

/-- **One instruction keeps names apart.** -/
theorem Apart.add (h : Apart w) (hadd : w.add c ins offset = .ok w') : Apart w' := by
  have hremark : ∀ body, ∀ l ∈ [Line.comment body], l.Legible :=
    fun body => List.forall_mem_singleton.2 trivial
  rcases kind_cases ins with hop | hop | ⟨n, hop⟩ | hordinary
  · simp only [Progress.add, hop] at hadd
    obtain rfl := Except.ok.inj hadd
    exact h.lines (hremark _) rfl Array.toList_push rfl
  · simp only [Progress.add, hop] at hadd
    obtain rfl := Except.ok.inj hadd
    unfold declare
    split
    · exact h.lines (hremark _) rfl Array.toList_appendList rfl
    · next husable =>
      simp only [Bool.or_eq_true, Bool.not_eq_true', not_or, Bool.not_eq_false,
        Bool.not_eq_true] at husable
      split
      · exact h.lines (hremark _) rfl Array.toList_appendList rfl
      · next hnew =>
        refine h.name ⟨husable.1, ?_⟩ (by simpa using hnew) Array.toList_appendList rfl
        -- a label of lowering is reserved
        intro l hl heq
        rw [← heq, isReserved_render hl] at husable
        exact absurd husable.2 (by decide)
  · simp only [Progress.add, hop] at hadd
    obtain rfl := Except.ok.inj hadd
    have hnothing : ∀ l ∈ [Line.nothingFor ins], l.Legible := List.forall_mem_singleton.2 trivial
    exact h.lines hnothing rfl Array.toList_push rfl
  · rw [Progress.add_eq hordinary] at hadd
    split at hadd
    · next ls hls =>
      obtain rfl := Except.ok.inj hadd
      have hown := own_draft hls
      exact h.lines (fun l hl => Line.legible_of_own (hown l hl)) (foreignLabels_of_own hown)
        Array.toList_appendList rfl
    · cases hadd

theorem Apart.addAll (h : Apart w) {xs : List (Instruction × Nat)}
    (hadd : xs.foldlM (fun w x => Progress.add c w x.1 x.2) w = .ok w') : Apart w' :=
  foldlM_keeps Apart.add h hadd

end Apart

variable {p p' : Program} {s : Settings} {out : Output}

theorem legible_prologue (c : Context) (stackTop : UInt32) :
    ∀ l ∈ prologue c stackTop, l.Legible := by
  have hown : ∀ l ∈ prologue c stackTop, l = .visible .main ∨ l.own := by
    have hentry : (Line.jump (entryLabel c.functions)).own := by
      unfold entryLabel
      split <;> rfl
    simp only [prologue, enterFrame, List.cons_append, List.nil_append, List.forall_mem_cons]
    exact ⟨.inr rfl, .inl trivial, .inr rfl, .inr rfl, .inr rfl, .inr rfl, .inr rfl, .inr rfl,
      .inr hentry, List.forall_mem_nil _⟩
  intro l hl
  rcases hown l hl with rfl | hl
  · exact trivial
  · exact Line.legible_of_own hl

/-- **Names are told apart in a listing.** -/
theorem told_of_lower (h : lower p s = .ok out) : Told out.lines := by
  obtain ⟨fs, w, -, -, hw, -, hlines⟩ := lower_ok h
  have hw := (apart_empty.addAll hw).told
  have hexit : ∀ l ∈ (if needsExit fs p.instructions then epilogue else []), l.own := by
    split
    · decide
    · exact List.forall_mem_nil _
  rw [hlines]
  refine ⟨?_, ?_⟩
  · exact List.forall_mem_append.2 ⟨List.forall_mem_append.2 ⟨legible_prologue _ _, hw.legible⟩,
      fun l hl => Line.legible_of_own (hexit l hl)⟩
  · rw [foreignLabels_append, foreignLabels_append, foreignLabels_of_own hexit, List.append_nil]
    exact hw.once

/-! ### Listings without names -/

theorem bare_declare (names : List Text) (name : Text) : bare (declare names name).1 = [] := by
  unfold declare
  split
  · rfl
  · split <;> rfl

/-- A name changes nothing but names and remarks in the lines of an instruction. -/
theorem add_unnamed (c : Context) {w w' : Progress}
    (hw : bare w.lines.toList = bare w'.lines.toList) (ins : Instruction) (offset : Nat) :
    Paired Eq (fun v v' => bare v.lines.toList = bare v'.lines.toList) (w.add c ins offset)
      (w'.add c ins.unnamed offset) := by
  have happend : ∀ ls ls' : List Line, bare ls = bare ls' →
      bare (w.lines.toList ++ ls) = bare (w'.lines.toList ++ ls') := by
    intro ls ls' hls
    rw [bare, bare, List.filter_append, List.filter_append]
    exact congr (congrArg _ hw) hls
  rcases kind_cases ins with hop | hop | ⟨n, hop⟩ | hordinary
  · simp only [Progress.add, op_unnamed, hop]
    refine .ok ?_
    rw [Array.toList_push, Array.toList_push]
    exact happend _ _ rfl
  · simp only [Progress.add, op_unnamed, hop]
    refine .ok ?_
    rw [Array.toList_appendList, Array.toList_appendList]
    exact happend _ _ (by rw [bare_declare, bare_declare])
  · rw [unnamed_of_not_marker (by rw [hop]; rfl)]
    simp only [Progress.add, hop]
    refine .ok ?_
    rw [Array.toList_push, Array.toList_push]
    exact happend _ _ rfl
  · rw [unnamed_of_not_marker hordinary.1, Progress.add_eq hordinary, Progress.add_eq hordinary]
    split
    · refine .ok ?_
      rw [Array.toList_appendList, Array.toList_appendList]
      exact happend _ _ rfl
    · exact .error rfl

theorem entryReturns_unnamed (fs : Functions) (located : List (Instruction × Nat)) :
    entryReturns fs (located.map unnamedAt) = entryReturns fs located := by
  simp only [entryReturns, List.any_map, Function.comp_def, unnamedAt, op_unnamed]

theorem fallsThrough_unnamed (list : List Instruction) :
    fallsThrough (list.map unnamed) = fallsThrough list := by
  simp only [fallsThrough, ← List.map_reverse, List.find?_map, Function.comp_def, op_unnamed]
  cases list.reverse.find? fun ins => !ins.op.isMarker with
  | none => rfl
  | some ins => simp only [Option.map_some, op_unnamed]

/-- **The listing of a program without names**: it only differs in names and remarks, or both
programs are refused for the same reason. -/
theorem lower_unnamed (p : Program) (s : Settings) :
    Paired Eq (fun out out' => out.frame = out'.frame ∧ bare out.lines = bare out'.lines)
      (lower p s) (lower p.unnamed s) := by
  have hwritten : ∀ c, Paired Eq (fun v v' => bare v.lines.toList = bare v'.lines.toList)
      ((p.instructions.zip (offsets p.instructions)).foldlM
        (fun w x => Progress.add c w x.1 x.2) {})
      (((p.instructions.zip (offsets p.instructions)).map
        unnamedAt).foldlM (fun w x => Progress.add c w x.1 x.2) {}) := by
    intro c
    refine Paired.foldlM (Q := fun x y => y = unnamedAt x) ?_ ?_ rfl
    · rw [List.forall₂_map_right_iff]
      exact List.forall₂_same.2 fun _ _ => rfl
    · rintro x _ rfl w w' hw
      exact add_unnamed c hw x.1 x.2
  rw [lower, lower, Frame.ofProgram_unnamed]
  simp only [Program.unnamed, Functions.ofList_unnamed, Instruction.offsets_unnamed,
    Instruction.located_unnamed, entryReturns_unnamed, fallsThrough_unnamed]
  cases (Frame.ofProgram p s).check with
  | error e => exact .error rfl
  | ok _ =>
      cases Functions.ofList p.instructions s.features.implicitEntry with
      | error e => exact .error rfl
      | ok fs =>
          refine (hwritten ⟨Frame.ofProgram p s, fs⟩).bind fun v v' hv => .ok ⟨rfl, ?_⟩
          simp only [bare, List.filter_append] at hv ⊢
          rw [hv]

/-- **Names do not change the words of a program.**  Let two programs differ in the names of their
markers only.  Both are refused, for the same reason, or both have a listing; and then none of the
listings is assembled, or both are, to the same words. -/
theorem assemble_renamed {p p' : Program} (h : p'.unnamed = p.unnamed) (s : Settings) :
    (∃ e, lower p s = .error e ∧ lower p' s = .error e) ∨
      ∃ out out', lower p s = .ok out ∧ lower p' s = .ok out' ∧ out.frame = out'.frame ∧
        ∀ elide,
          ((∃ e, Assembly.assemble elide (out.lines.map Line.render) = .error e) ∧
            ∃ e, Assembly.assemble elide (out'.lines.map Line.render) = .error e) ∨
          ∃ image image', Assembly.assemble elide (out.lines.map Line.render) = .ok image ∧
            Assembly.assemble elide (out'.lines.map Line.render) = .ok image' ∧
            image.words = image'.words := by
  have hleft := lower_unnamed p s
  rw [← h] at hleft
  have hboth : Paired Eq
      (fun out out' => out.frame = out'.frame ∧ bare out.lines = bare out'.lines)
      (lower p s) (lower p' s) :=
    hleft.trans (lower_unnamed p' s).symm (fun _ _ _ he he' => he.trans he'.symm)
      fun _ _ _ hout hout' => ⟨hout.1.trans hout'.1.symm, hout.2.trans hout'.2.symm⟩
  rcases paired_iff.1 hboth with ⟨e, _, hp, hp', rfl⟩ | ⟨out, out', hp, hp', hframe, hbare⟩
  · exact .inl ⟨e, hp, hp'⟩
  · refine .inr ⟨out, out', hp, hp', hframe, fun elide => ?_⟩
    rcases paired_iff.1 (words_of_bare (told_of_lower hp) (told_of_lower hp') hbare elide) with
      ⟨e, e', he, he', -⟩ | hwords
    · exact .inl ⟨⟨e, he⟩, e', he'⟩
    · exact .inr hwords

/-- One program names its places like a label, like a mnemonic, like its second instruction, and
like a mnemonic again.  The names of the other hold line ends, a comment, and bytes that are no
characters. -/
theorem assemble_renamed_hostile :
    let named (a b c d : Text) : Program :=
      ⟨[⟨.entry, [], a⟩, ⟨.global, [], b⟩, ⟨.iconst, [7], []⟩, ⟨.global, [], c⟩, ⟨.global, [], d⟩,
        ⟨.print, [], []⟩, ⟨.ret, [], []⟩], 1⟩
    let p := named (text "main") (text "nop") (text "L5") (text "nop")
    let p' := named (text "x\n\tnop") (text "a:#") [255, 10] (text "nop")
    p'.unnamed = p.unnamed ∧
      ∃ out out' image image', lower p {} = .ok out ∧ lower p' {} = .ok out' ∧
        Assembly.assemble true (out.lines.map Line.render) = .ok image ∧
        Assembly.assemble true (out'.lines.map Line.render) = .ok image' ∧
        image.words = image'.words := by
  intro named p p'
  have hstarts : Functions.startsIn
      (p.instructions.zip (offsets p.instructions)) = [0, 5] := by
    show ([0, 0, 0, 5, 5] : List Nat).mergeSort.eraseReps = [0, 5]
    rw [List.mergeSort_of_pairwise (by decide)]
    rfl
  have hfs : Functions.ofList p.instructions true =
      .ok ⟨[⟨0, 5, 0, 3, true⟩, ⟨5, 7, 3, 7, false⟩], 0,
        Functions.boundariesOf (p.instructions.zip (offsets p.instructions))⟩ := by
    unfold Functions.ofList
    simp only [hstarts]
    rfl
  have hshort : (lower p {}).toOption.any (fun out => out.lines.length < 16384) = true := by
    rw [lower]
    simp only [hfs]
    decide +kernel
  rcases assemble_renamed (show p'.unnamed = p.unnamed from rfl) {} with
    ⟨e, hp, -⟩ | ⟨out, out', hp, hp', -, hwords⟩
  · rw [hp] at hshort
    cases hshort
  · rw [hp] at hshort
    have hplaceable : ∀ ins ∈ p.instructions, Placeable ins := by
      unfold Placeable
      decide
    obtain ⟨image, himage⟩ :=
      assembles_short (by decide) hplaceable hp (of_decide_eq_true hshort)
    rcases hwords true with ⟨⟨e, he⟩, -⟩ | ⟨image, image', hwords⟩
    · rw [he] at himage
      cases himage
    · exact ⟨rfl, out, out', image, image', hp, hp', hwords⟩

end Mips

end Lowering

end StackCompiler
