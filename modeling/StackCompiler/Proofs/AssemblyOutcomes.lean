/-
**How assembling ends.**

Assembling ends with an image, with a failure on a line, or abruptly: on a line that has only
separators where its mnemonic should be.  That is the one abrupt end.  Every other step that reads
an operand by its place has counted the operands before, in the same pass or in the first one.

* `Assembly.Statement.parse_noMnemonic_iff` — the lines on which assembling ends abruptly;
* `Assembly.line_of_error` — a failure names one of the lines;
* `Assembly.Mnemonic.refuses_encode` — operands are counted before they are read;
* `Assembly.assemble_outcomes` — all ends.
-/

import Mathlib.Data.List.Flatten
import StackCompiler.Proofs.PassAgreement

namespace StackCompiler

open Assembly.Statement (blankSeparators)

/-! ### Texts of separators -/

namespace Text

/-- The characters that separate operands: blanks, commas and parentheses. -/
def separates (p : Piece) : Bool := isBlank p || [.char ',', .char '(', .char ')'].contains p

/-- A text of nothing but separators. -/
def OnlySeparators (t : Text) : Prop := ∀ p ∈ pieces t, separates p

theorem OnlySeparators.not_mem {t : Text} (h : OnlySeparators t) {c : UInt8}
    (hc : c < 0x80 ∧ separates (letter c) = false) : ∀ d ∈ t, d ≠ c := by
  rintro d hd rfl
  rw [h _ (mem_pieces hc.1 hd)] at hc
  cases hc.2

theorem mem_of_letter {c : UInt8} {t : Text} (h : c < 0x80) (hc : letter c ∈ pieces t) : c ∈ t := by
  rw [← ofPieces_pieces t]
  exact List.mem_flatMap.2 ⟨letter c, hc, by rw [bytes_letter h]; exact List.mem_singleton_self c⟩

theorem length_trim_le (t : Text) : (trim t).length ≤ t.length := by
  have hback :=
    (List.dropWhile_sublist isBlank (l := ((pieces t).dropWhile isBlank).reverse)).reverse
  rw [List.reverse_reverse] at hback
  have hpieces := hback.trans (List.dropWhile_sublist isBlank)
  have hbytes := (hpieces.flatMap Piece.bytes).length_le
  rwa [← ofPieces, ← ofPieces, ofPieces_pieces] at hbytes

theorem runsOf_ne_nil (ps : List Piece) : runsOf ps ≠ [] := by
  induction ps with
  | nil => exact List.cons_ne_nil _ _
  | cons p ps ih =>
      rw [runsOf, List.foldr_cons, ← runsOf]
      split
      · exact List.cons_ne_nil _ _
      · simpa using ih

theorem fields_eq_nil_iff {t : Text} : fields t = [] ↔ ∀ p ∈ pieces t, isBlank p := by
  rw [fields, List.map_eq_nil_iff]
  generalize pieces t = ps
  induction ps with
  | nil => simp [fieldsOf]
  | cons p ps ih =>
      rw [List.forall_mem_cons]
      by_cases hp : isBlank p
      · rw [fieldsOf_blank hp, ih, and_iff_right hp]
      · obtain ⟨run, runs, hrun⟩ := List.exists_cons_of_ne_nil (runsOf_ne_nil ps)
        have hruns : runsOf (p :: ps) = (p :: run) :: runs := by
          rw [← List.singleton_append, runsOf_append (by simpa using hp), hrun]
          rfl
        simp [fieldsOf_eq, hruns, hp]

/-- Blanking the commas and parentheses of a text leaves no field exactly if there is nothing else
in it. -/
theorem fields_blankSeparators (t : Text) : fields (blankSeparators t) = [] ↔ OnlySeparators t := by
  rw [fields_eq_nil_iff]
  -- at a separator both texts fall apart into their characters before and behind it
  induction hn : t.length using Nat.strongRecOn generalizing t with
  | _ n ih =>
    by_cases hsep : ∃ c ∈ t, c = 44 ∨ c = 40 ∨ c = 41
    · obtain ⟨c, hc, hsep⟩ := hsep
      obtain ⟨s, u, rfl⟩ := List.append_of_mem hc
      have hblank : blankSeparators (s ++ c :: u) =
          blankSeparators s ++ 32 :: blankSeparators u := by
        simp [blankSeparators, hsep]
      have hletter : c < 0x80 ∧ separates (letter c) := by
        rcases hsep with rfl | rfl | rfl <;> decide
      have hs := ih s.length (by simp at hn; omega) s rfl
      have hu := ih u.length (by simp at hn; omega) u rfl
      rw [OnlySeparators] at hs hu ⊢
      rw [hblank, pieces_append (by decide), pieces_append hletter.1, List.forall_mem_append,
        List.forall_mem_append, List.forall_mem_cons, List.forall_mem_cons, hs, hu,
        and_iff_right (show isBlank (letter 32) by decide), and_iff_right hletter.2]
    · have hsame : blankSeparators t = t := by
        refine (List.map_congr_left ?_).trans (List.map_id t)
        intro c hc
        exact if_neg fun h => hsep ⟨c, hc, h⟩
      rw [hsame]
      refine forall₂_congr fun p hp => ?_
      have hother : ∀ c : UInt8, c = 44 ∨ c = 40 ∨ c = 41 → p ≠ letter c := by
        rintro c hc rfl
        exact hsep ⟨c, mem_of_letter (by rcases hc with rfl | rfl | rfl <;> decide) hp, hc⟩
      have h44 : p ≠ .char ',' := hother 44 (by decide)
      have h40 : p ≠ .char '(' := hother 40 (by decide)
      have h41 : p ≠ .char ')' := hother 41 (by decide)
      simp [separates, h44, h40, h41]

end Text

namespace Assembly

/-! ### Lines without a mnemonic -/

namespace Statement

/-- What is left of a text when labels are taken off its front.  A text that starts with a point is
a directive and has none. -/
inductive Unlabelled : Text → Text → Prop where
  | here (t : Text) : Unlabelled t t
  | label {front rest u : Text} (hcolon : ∀ c ∈ front, c ≠ 58) (hpoint : isDirective front = false)
      (hname : Text.isIdentifier (Text.trim front)) (hrest : Unlabelled (Text.trim rest) u) :
      Unlabelled (front ++ 58 :: rest) u

/-- A line with nothing but separators behind its labels.  There is no colon among the separators,
so no label is left. -/
def LacksMnemonic (source : Text) : Prop :=
  ∃ rest, Unlabelled (significant source) rest ∧ rest ≠ [] ∧ Text.OnlySeparators rest

theorem unlabelled_of_takeLabels {fuel : Nat} {t rest : Text} {seen labels : List Text}
    (h : takeLabels fuel t seen = .ok (labels, rest)) : Unlabelled t rest := by
  fun_induction takeLabels fuel t seen with
  | case1 | case2 | case3 | case4 | case5 =>
      cases h
      exact .here _
  | case6 fuel t seen hplain front behind hfront hcut name _ hname ih =>
      obtain ⟨rfl, hcolon⟩ := Text.cut_eq_some hcut
      refine .label hcolon ?_ hname (ih h)
      cases front with
      | nil => exact absurd rfl hfront
      | cons c front => simpa [isDirective] using hplain
  | case7 => cases h

theorem takeLabels_of_unlabelled {t rest : Text} (h : Unlabelled t rest)
    (hrest : Text.OnlySeparators rest) {fuel : Nat} (hfuel : t.length ≤ fuel) (seen : List Text) :
    ∃ labels, takeLabels fuel t seen = .ok (labels, rest) := by
  induction h generalizing fuel seen with
  | here t =>
      have hcut : Text.cut 58 t = (t, none) := Text.cut_not_mem (hrest.not_mem (by decide))
      refine ⟨seen.reverse, ?_⟩
      cases fuel with
      | zero => rfl
      | succ fuel =>
        rw [takeLabels, hcut]
        split
        · rfl
        · cases t <;> rfl
  | @label front behind u hcolon hpoint hname _ ih =>
      have hlength := Text.length_trim_le behind
      rw [List.length_append, List.length_cons] at hfuel
      obtain ⟨fuel, rfl⟩ : ∃ n, fuel = n + 1 := ⟨fuel - 1, by omega⟩
      have hle : (Text.trim behind).length ≤ fuel := by omega
      obtain ⟨labels, hlabels⟩ := ih hrest hle (Text.trim front :: seen)
      refine ⟨labels, ?_⟩
      cases front with
      | nil => exact absurd hname (by decide)
      | cons c front =>
          have hplain : (List.isEmpty (c :: front ++ 58 :: behind) ||
              isDirective (c :: front ++ 58 :: behind)) = false := hpoint
          rw [takeLabels, hplain, if_neg Bool.false_ne_true, Text.cut_append hcolon]
          simp only [Text.holdsSeparator_identifier hname, hname, Bool.false_eq_true, if_false,
            if_true]
          exact hlabels

/-- **A line ends assembling abruptly** exactly if nothing but separators stands behind its
labels. -/
theorem parse_noMnemonic_iff {n m : Nat} {source : Text} :
    parse n source = .error (.noMnemonic m) ↔ m = n ∧ LacksMnemonic source := by
  constructor
  · intro h
    simp only [parse] at h
    split at h
    · cases h
    · next labels rest htake =>
        split at h
        · cases h
        · next hplain =>
            split at h
            · next hfields =>
                cases h
                refine ⟨rfl, rest, unlabelled_of_takeLabels htake, ?_,
                  (Text.fields_blankSeparators rest).1 hfields⟩
                rintro rfl
                exact hplain rfl
            · cases h
  · rintro ⟨rfl, rest, hunlabelled, hne, honly⟩
    obtain ⟨labels, htake⟩ := takeLabels_of_unlabelled hunlabelled honly (Nat.le_refl _) []
    have hplain : (rest.isEmpty || isDirective rest) = false := by
      cases rest with
      | nil => exact absurd rfl hne
      | cons c rest =>
          have hpoint := honly.not_mem (c := 46) (by decide) c List.mem_cons_self
          simpa [isDirective] using hpoint
    simp only [parse, htake, hplain, (Text.fields_blankSeparators rest).2 honly,
      Bool.false_eq_true, if_false]

theorem parse_line_of_error {n : Nat} {source : Text} {e : LineError}
    (h : parse n source = .error (.line e)) : e.line = n := by
  simp only [parse] at h
  split at h
  · cases h
    rfl
  · split at h
    · cases h
    · split at h <;> cases h

/-- Lines are taken apart up to the first that is wrong. -/
theorem parseAll_error_iff {lines : List Text} {e : Failure} :
    parseAll lines = .error e ↔ ∃ before line after ss, lines = before ++ line :: after ∧
      parseAll before = .ok ss ∧ parse (before.length + 1) line = .error e := by
  constructor
  · intro h
    obtain ⟨ys, ⟨line, n⟩, zs, ss, hsplit, hss, hline⟩ := mapM_error_iff.1 h
    obtain ⟨before, rest, rfl, rfl, hrest⟩ := List.zipIdx_eq_append_iff.1 hsplit
    obtain ⟨line', after, rfl, hcons, rfl⟩ := List.zipIdx_eq_cons_iff.1 hrest.symm
    cases hcons
    exact ⟨before, line, after, ss, rfl, hss, by rwa [Nat.add_comm]⟩
  · rintro ⟨before, line, after, ss, rfl, hss, hline⟩
    rw [parseAll, List.zipIdx_append, List.zipIdx_cons, Nat.add_comm 1]
    exact mapM_error_iff.2 ⟨_, _, _, ss, rfl, hss, hline⟩

theorem line_bounds {lines : List Text} {ss : List Statement} (hss : parseAll lines = .ok ss)
    {s : Statement} (hs : s ∈ ss) : 1 ≤ s.line ∧ s.line ≤ lines.length := by
  obtain ⟨hlength, hline⟩ := parsed hss
  obtain ⟨i, hi, rfl⟩ := List.mem_iff_getElem.1 hs
  rw [hline i ss[i] (List.getElem?_eq_getElem hi)]
  omega

end Statement

/-! ### The number of operands -/

/-- Whether the number of operands is wrong. -/
def Cause.isArity : Cause → Bool
  | .operand (.arity ..) | .operand (.jumpRegisterArity _) | .operand (.memoryArity _) => true
  | _ => false

/-- Operands are refused for their number. -/
def Refuses {α : Type} (x : Except Cause α) : Prop := ∃ cause, x = .error cause ∧ cause.isArity

section Refusals

variable {α β : Type} {x : Except Cause α} {form : String} {operands : List Text}

@[simp] theorem refuses_bind {f : α → Except Cause β} (h : Refuses x) : Refuses (x >>= f) := by
  obtain ⟨cause, rfl, hcause⟩ := h
  exact ⟨cause, rfl, hcause⟩

@[simp] theorem refuses_map {f : α → β} (h : Refuses x) : Refuses (f <$> x) := by
  obtain ⟨cause, rfl, hcause⟩ := h
  exact ⟨cause, rfl, hcause⟩

@[simp] theorem refuses_none (h : operands.length ≠ 0) : Refuses (Operand.none form operands) := by
  unfold Operand.none
  split
  · exact absurd rfl h
  · exact ⟨_, rfl, rfl⟩

@[simp] theorem refuses_one (h : operands.length ≠ 1) : Refuses (Operand.one form operands) := by
  unfold Operand.one
  split
  · exact absurd rfl h
  · exact ⟨_, rfl, rfl⟩

@[simp] theorem refuses_two (h : operands.length ≠ 2) : Refuses (Operand.two form operands) := by
  unfold Operand.two
  split
  · exact absurd rfl h
  · exact ⟨_, rfl, rfl⟩

@[simp] theorem refuses_three (h : operands.length ≠ 3) :
    Refuses (Operand.three form operands) := by
  unfold Operand.three
  split
  · exact absurd rfl h
  · exact ⟨_, rfl, rfl⟩

theorem refuses_jumpLinkRegister (h₁ : operands.length ≠ 1) (h₂ : operands.length ≠ 2) :
    Refuses (jumpLinkRegister operands) := by
  unfold jumpLinkRegister
  split
  · exact absurd rfl h₁
  · exact absurd rfl h₂
  · exact ⟨_, rfl, rfl⟩

theorem refuses_memoryAccess (o : Operation) (h₂ : operands.length ≠ 2)
    (h₃ : operands.length ≠ 3) : Refuses (memoryAccess o operands) := by
  unfold memoryAccess
  split
  · exact absurd rfl h₂
  · exact absurd rfl h₃
  · exact ⟨_, rfl, rfl⟩

end Refusals

namespace Mnemonic

/-- The numbers of operands that an instruction can have. -/
def arities : Mnemonic → List Nat
  | operation .syscall | nop => [0]
  | operation .mfhi | operation .mflo | operation .jr | operation .j | operation .jal | b => [1]
  | operation .jalr => [1, 2]
  | operation .mult | operation .multu | operation .div | operation .divu | operation .lui
  | operation .blez | operation .bgtz | move | li | la | beqz | bnez => [2]
  | operation .lb | operation .lh | operation .lw | operation .lbu | operation .lhu
  | operation .sb | operation .sh | operation .sw => [2, 3]
  | _ => [3]

/-- **Operands are counted before they are read.** -/
theorem refuses_encode {m : Mnemonic} {operands : List Text} (h : operands.length ∉ m.arities)
    (labels : Labels) (pc : UInt32) (words : Nat) :
    Refuses (m.encode labels pc words operands) := by
  cases m with
  | operation o =>
      refine refuses_bind ?_
      unfold encodeOperation
      split <;> simp_all [arities, threeRegisters, shiftByRegister, shiftByAmount, multiply,
        fromProduct, jumpRegister, withImmediate, loadUpperImmediate, branchTwo, branchOne, jumpTo,
        refuses_jumpLinkRegister, refuses_memoryAccess]
  | _ => simp_all [arities, encode, encodeNumber, encodeAddress, branchOne]

theorem length_of_size {m : Mnemonic} (hm : m = .li ∨ m = .la) {elide : Bool} {labels : Labels}
    {operands : List Text} {n : Nat} (h : m.size elide labels operands = .ok n) :
    operands.length = 2 := by
  by_contra hcount
  have hrefuses : Refuses (m.size elide labels operands) := by
    rcases hm with rfl | rfl
    · exact refuses_bind (refuses_two hcount)
    · exact refuses_bind (refuses_two hcount)
  obtain ⟨cause, hcause, -⟩ := hrefuses
  rw [h] at hcause
  cases hcause

end Mnemonic

/-! ### All ends -/

variable {elide : Bool}

theorem assemble_noMnemonic_iff {lines : List Text} {n : Nat} :
    assemble elide lines = .error (.noMnemonic n) ↔
      Statement.parseAll lines = .error (.noMnemonic n) := by
  rw [assemble, bind_error_iff, or_iff_left]
  rintro ⟨ss, -, h⟩
  obtain ⟨_, -, h⟩ := mapError_error_iff.1 h
  cases h

/-- **A failure names one of the lines.** -/
theorem line_of_error {lines : List Text} {e : LineError}
    (h : assemble elide lines = .error (.line e)) : 1 ≤ e.line ∧ e.line ≤ lines.length := by
  rcases bind_error_iff.1 h with h | ⟨ss, hss, h⟩
  · obtain ⟨before, line, after, -, rfl, -, hline⟩ := Statement.parseAll_error_iff.1 h
    rw [Statement.parse_line_of_error hline, List.length_append, List.length_cons]
    omega
  obtain ⟨e', hpasses, he⟩ := mapError_error_iff.1 h
  obtain rfl := Failure.line.inj he
  rcases bind_error_iff.1 hpasses with h | ⟨plan, hplan, h⟩
  · obtain ⟨before, s, after, _, rfl, -, h⟩ := foldlM_error_iff.1 h
    obtain ⟨cause, -, rfl⟩ := mapError_error_iff.1 h
    exact Statement.line_bounds hss (List.mem_append_right _ List.mem_cons_self)
  · obtain ⟨before, x, after, _, hsplit, -, h⟩ := foldlM_error_iff.1 h
    obtain ⟨cause, -, rfl⟩ := mapError_error_iff.1 h
    obtain ⟨s, hs, hline⟩ := (layOut_planned hplan).line_of_mem (x := x) (by simp [hsplit])
    exact hline ▸ Statement.line_bounds hss hs

/-- An instruction has a number of operands that it can have, or is refused for it when it is
encoded; `li` and `la` always have two. -/
def Sized.Counted (x : Sized) : Prop :=
  x.operands.length ∈ x.mnemonic.arities ∨ x.mnemonic ≠ .li ∧ x.mnemonic ≠ .la ∧
    ∀ labels pc words, Refuses (x.mnemonic.encode labels pc words x.operands)

theorem counted_of_layOut {ss : List Statement} {plan : Plan} (hplan : layOut elide ss = .ok plan)
    {x : Sized} (hx : x ∈ plan.sized) : x.Counted := by
  obtain ⟨known, -, hsize⟩ := (layOut_planned hplan).sized (Array.mem_toList_iff.2 hx)
  by_cases hcount : x.operands.length ∈ x.mnemonic.arities
  · exact .inl hcount
  · refine .inr ⟨?_, ?_, Mnemonic.refuses_encode hcount⟩
    · intro hm
      rw [Mnemonic.length_of_size (.inl hm) hsize, hm] at hcount
      exact hcount (by decide)
    · intro hm
      rw [Mnemonic.length_of_size (.inr hm) hsize, hm] at hcount
      exact hcount (by decide)

/-- **How assembling ends.**  It ends abruptly exactly at a line that has nothing but separators
behind its labels, if all lines before it can be taken apart; otherwise it ends with an image or
with a failure on one of the lines.  No other operand is read without being counted. -/
theorem assemble_outcomes (elide : Bool) (lines : List Text) :
    (∀ n, assemble elide lines = .error (.noMnemonic n) ↔
      ∃ before line after ss, lines = before ++ line :: after ∧ n = before.length + 1 ∧
        Statement.parseAll before = .ok ss ∧ Statement.LacksMnemonic line) ∧
    ((∃ n, assemble elide lines = .error (.noMnemonic n)) ∨
      (∃ image, assemble elide lines = .ok image) ∨
      ∃ e, assemble elide lines = .error (.line e) ∧ 1 ≤ e.line ∧ e.line ≤ lines.length) ∧
    ∀ ss plan, Statement.parseAll lines = .ok ss → layOut elide ss = .ok plan →
      ∀ x ∈ plan.sized, x.Counted := by
  refine ⟨?_, ?_, fun ss plan _ hplan x hx => counted_of_layOut hplan hx⟩
  · intro n
    rw [assemble_noMnemonic_iff, Statement.parseAll_error_iff]
    simp only [Statement.parse_noMnemonic_iff]
    constructor
    · rintro ⟨before, line, after, ss, hlines, hss, hn, hlacks⟩
      exact ⟨before, line, after, ss, hlines, hn, hss, hlacks⟩
    · rintro ⟨before, line, after, ss, hlines, hn, hss, hlacks⟩
      exact ⟨before, line, after, ss, hlines, hss, hn, hlacks⟩
  · cases h : assemble elide lines with
    | ok image => exact .inr (.inl ⟨image, rfl⟩)
    | error e =>
        cases e with
        | noMnemonic n => exact .inl ⟨n, rfl⟩
        | line e => exact .inr (.inr ⟨e, rfl, line_of_error h⟩)

theorem assemble_outcomes_separators :
    assemble true [text "start:", text "loop: (,)  # nothing"] = .error (.noMnemonic 2) := by
  refine ((assemble_outcomes true _).1 2).2 ⟨[text "start:"], _, [], _, rfl, rfl, rfl, ?_⟩
  refine ⟨text "(,)", ?_, by decide, by unfold Text.OnlySeparators; decide⟩
  have hrest : Text.trim (text " (,)") = text "(,)" := by decide
  have hlabel : Statement.Unlabelled (text "loop" ++ 58 :: text " (,)") (text "(,)") :=
    .label (by rintro c hc rfl; exact absurd hc (by decide)) (by decide) (by decide +kernel)
      (hrest ▸ .here _)
  exact hlabel

end Assembly

end StackCompiler
