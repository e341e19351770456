/-
**The words of a listing do not depend on its names.**

A listing holds names of the program and remarks beside its instructions.  They have no words, and
no instruction of a listing uses a name of the program as a label.  So the words of a listing are
those of its other lines, whatever the numbers are that these hold: two listings that only differ in
names and remarks are both turned down, or both assembled to the same words.

* `Listing.words_of_bare` — **listings that only differ in names and remarks have the same words, or
  none of them is assembled**.
-/

import Mathlib.Data.List.Flatten
import StackCompiler.Proofs.ListingAssembly
import StackCompiler.Proofs.PairedOutcomes

namespace StackCompiler

open Assembly (assemble layOut)

/-! ### Tables of labels -/

namespace Assembly

variable {labels labels' : Labels} {operands : List Text}

/-- What follows a step only matters for what the step returned. -/
theorem bind_congr_ok {ε α β : Type} {x : Except ε α} {f g : α → Except ε β}
    (h : ∀ a, x = .ok a → f a = g a) : x >>= f = x >>= g := by
  cases x with
  | error e => rfl
  | ok a => exact h a rfl

theorem label_congr {t : Text} (h : labels[t]? = labels'[t]?) :
    Operand.label labels t = Operand.label labels' t := by
  rw [Operand.label, Operand.label, h]

theorem branch_congr {t : Text} (h : labels[t]? = labels'[t]?) (pc : UInt32) :
    Operand.branch labels pc t = Operand.branch labels' pc t := by
  rw [Operand.branch, Operand.branch, label_congr h]

section Congr

variable (h : ∀ t ∈ operands, labels[t]? = labels'[t]?)

include h

theorem branchTwo_congr (o : Operation) (pc : UInt32) :
    branchTwo o labels pc operands = branchTwo o labels' pc operands := by
  refine bind_congr_ok ?_
  rintro ⟨_, _, l⟩ hx
  obtain rfl := three_ok hx
  simp only [branch_congr (h l (by simp))]

theorem branchOne_congr (o : Operation) (pc : UInt32) :
    branchOne o labels pc operands = branchOne o labels' pc operands := by
  refine bind_congr_ok ?_
  rintro ⟨_, l⟩ hx
  obtain rfl := two_ok hx
  simp only [branch_congr (h l (by simp))]

theorem jumpTo_congr (o : Operation) : jumpTo o labels operands = jumpTo o labels' operands := by
  refine bind_congr_ok fun t ht => ?_
  obtain rfl := one_ok ht
  rw [label_congr (h t (by simp))]

theorem encodeOperation_congr (o : Operation) (pc : UInt32) :
    encodeOperation labels pc o operands = encodeOperation labels' pc o operands := by
  cases o with
  | beq | bne => exact branchTwo_congr h _ pc
  | blez | bgtz => exact branchOne_congr h _ pc
  | j | jal => exact jumpTo_congr h _
  | _ => rfl

/-- The number of words of an instruction depends on the labels among its operands only. -/
theorem Mnemonic.size_congr (m : Mnemonic) (elide : Bool) :
    m.size elide labels operands = m.size elide labels' operands := by
  cases m with
  | la =>
      refine bind_congr_ok ?_
      rintro ⟨_, l⟩ hx
      obtain rfl := two_ok hx
      simp only [h l (by simp)]
  | _ => rfl

/-- **The words of an instruction depend on the labels among its operands only.** -/
theorem Mnemonic.encode_congr (m : Mnemonic) (pc : UInt32) (n : Nat) :
    m.encode labels pc n operands = m.encode labels' pc n operands := by
  cases m with
  | operation o => rw [encode, encode, encodeOperation_congr h]
  | la =>
      refine bind_congr_ok ?_
      rintro ⟨_, l⟩ hx
      obtain rfl := two_ok hx
      simp only [label_congr (h l (by simp))]
  | beqz | bnez => simp only [encode, branchOne_congr h]
  | b =>
      refine bind_congr_ok fun t ht => ?_
      obtain rfl := one_ok ht
      rw [branch_congr (h t (by simp))]
  | _ => rfl

end Congr

end Assembly

namespace Listing

open Assembly (Image Labels Mnemonic Plan Sized Statement Written)

/-! ### Names that lowering does not make -/

/-- A name that no label of lowering is written as. -/
def IsForeign (t : Text) : Prop := Text.isIdentifier t ∧ ∀ l : Label, l.isMade → l.render ≠ t

/-- Two tables give all names but foreign ones the same addresses. -/
def Agree (labels labels' : Labels) : Prop := ∀ t, ¬IsForeign t → labels[t]? = labels'[t]?

theorem not_isForeign_render {l : Label} (h : l.isMade) : ¬IsForeign l.render :=
  fun hforeign => hforeign.2 l h rfl

/-- What starts with no letter, point or underscore is no identifier. -/
theorem isIdentifier_eq_false {c : UInt8} {t : Text} (hascii : Text.Ascii (c :: t))
    (hc : Text.startsName c = false) : Text.isIdentifier (c :: t) = false := by
  rw [Text.isIdentifier_cons hascii, hc, Bool.false_and]

theorem isIdentifier_signed (n : Int) : Text.isIdentifier (Numeral.signed n) = false := by
  have hascii := (token_signed n).ascii
  cases n with
  | ofNat n =>
      obtain ⟨d, rest, hwrite, hd, -⟩ := Numeral.write_eq_cons 10 (by decide) n
      have hdigits : ∀ d < 10, Text.startsName (Numeral.digit d) = false := by decide
      change Text.Ascii (Numeral.decimal n) at hascii
      change Text.isIdentifier (Numeral.decimal n) = false
      rw [Numeral.decimal, hwrite] at hascii ⊢
      exact isIdentifier_eq_false hascii (hdigits d hd)
  | negSucc n => exact isIdentifier_eq_false hascii (by decide)

theorem isIdentifier_name (r : Register) : Text.isIdentifier r.name = false := by
  have hascii := (token_name r).ascii
  have hnames : ∀ t ∈ Register.names, t.head?.all (fun c => !Text.startsName c) ∧ t ≠ [] := by
    decide
  unfold Register.name at hascii ⊢
  cases hr : Register.names[r.toNat]? with
  | none =>
      rw [hr] at hascii
      exact isIdentifier_eq_false hascii (by decide)
  | some t =>
      obtain ⟨hhead, hne⟩ := hnames t (List.mem_of_getElem? hr)
      rw [hr] at hascii
      obtain ⟨c, t, rfl⟩ := List.exists_cons_of_ne_nil hne
      exact isIdentifier_eq_false hascii (by simpa using hhead)

/-- **The identifiers among the words of operands are labels.** -/
theorem Operand.label_of_isIdentifier {o : Operand} {t : Text} (ht : t ∈ o.words)
    (hid : Text.isIdentifier t = true) : ∃ l, o = .label l ∧ t = l.render := by
  have hwords : (∃ l, o = .label l) ∨ ∀ t ∈ o.words, Text.isIdentifier t = false := by
    cases o with
    | register r => exact Or.inr (List.forall_mem_singleton.2 (isIdentifier_name r))
    | number n => exact Or.inr (List.forall_mem_singleton.2 (isIdentifier_signed n))
    | address a =>
        exact Or.inr (List.forall_mem_singleton.2
          (isIdentifier_eq_false (token_hex _).ascii (by decide)))
    | memory n r =>
        exact Or.inr (List.forall_mem_cons.2 ⟨isIdentifier_signed n,
          List.forall_mem_singleton.2 (isIdentifier_name r)⟩)
    | label l => exact Or.inl ⟨l, rfl⟩
  rcases hwords with ⟨l, rfl⟩ | hnone
  · exact ⟨l, rfl, List.mem_singleton.1 ht⟩
  · rw [hnone t ht] at hid
    cases hid

theorem Operand.not_isForeign {o : Operand} (h : o.isMade) : ∀ t ∈ o.words, ¬IsForeign t := by
  intro t ht hforeign
  obtain ⟨l, rfl, rfl⟩ := label_of_isIdentifier ht hforeign.1
  exact not_isForeign_render h hforeign

/-! ### Lines that are taken apart -/

/-- What is written on a line, where a line for nothing does nothing. -/
def Line.instruction : Line → Option Written
  | nothingFor _ => some ⟨text "nop", []⟩
  | l => l.written

/-- The statement of a line. -/
def Line.taken (n : Nat) (l : Line) : Statement := ⟨n, l.render, l.labels, l.instruction⟩

/-- A line that is taken apart, whatever its numbers are: no operand is a name of the program, and a
name of the program that is a label is none of the labels of lowering. -/
def Line.Legible : Line → Prop
  | label (.named name) => IsForeign name
  | code _ os => ∀ o ∈ os, o.isMade
  | _ => True

theorem Line.Readable.legible {l : Line} (h : l.Readable) : l.Legible := by
  cases l with
  | label l =>
      cases l with
      | named name => exact h
      | _ => exact trivial
  | code m os => exact fun o ho => (h o ho).isMade
  | _ => exact trivial

/-- A line that does nothing says so before its remark. -/
theorem parse_nothingFor (n : Nat) (ins : Instruction) :
    Statement.parse n (Line.nothingFor ins).render = .ok ((Line.nothingFor ins).taken n) := by
  have hsig : Statement.significant (Line.nothingFor ins).render = text "nop" := by
    have hup : Text.upTo 35 (Line.nothingFor ins).render = text "\tnop\t\t" := rfl
    rw [Statement.significant, hup]
    decide +kernel
  have hlabels : Statement.takeLabels (text "nop").length (text "nop") [] =
      .ok ([], text "nop") := by decide
  have hfields : Text.fields (Statement.blankSeparators (text "nop")) = [text "nop"] := by
    decide +kernel
  rw [Statement.parse, hsig]
  simp only [hlabels, hfields]
  rfl

/-- **A legible line is taken apart.** -/
theorem parse_legible (n : Nat) {l : Line} (h : l.Legible) :
    Statement.parse n l.render = .ok (l.taken n) := by
  cases l with
  | textSection => rfl
  | visible l => exact parse_visible n l
  | label l =>
      cases l with
      | named name => exact parse_named n h.1
      | _ => exact parse_label n rfl
  | place offset ins => exact parse_place n offset ins
  | comment body => exact parse_comment n body
  | code m os => exact parse_code n m h
  | nothingFor ins => exact parse_nothingFor n ins

/-- No operand of a line is a foreign name. -/
theorem Line.Legible.operands {l : Line} (h : l.Legible) {w : Written}
    (hw : l.instruction = some w) : ∀ t ∈ w.operands, ¬IsForeign t := by
  cases l with
  | code m os =>
      obtain rfl := Option.some.inj hw
      intro t ht
      obtain ⟨o, ho, ht⟩ := List.mem_flatMap.1 ht
      exact Operand.not_isForeign (h o ho) t ht
  | nothingFor ins =>
      obtain rfl := Option.some.inj hw
      exact List.forall_mem_nil _
  | _ => cases hw

/-- The statements of lines. -/
def takenFrom : Nat → List Line → List Statement
  | _, [] => []
  | first, l :: ls => l.taken first :: takenFrom (first + 1) ls

theorem mem_takenFrom {first : Nat} {lines : List Line} {s : Statement}
    (h : s ∈ takenFrom first lines) : ∃ n, ∃ l ∈ lines, s = l.taken n := by
  induction lines generalizing first with
  | nil => cases h
  | cons l lines ih =>
      rcases List.mem_cons.1 h with rfl | h
      · exact ⟨first, l, List.mem_cons_self, rfl⟩
      · obtain ⟨n, l', hl', rfl⟩ := ih h
        exact ⟨n, l', List.mem_cons_of_mem _ hl', rfl⟩

theorem parseAll_legible {lines : List Line} (h : ∀ l ∈ lines, l.Legible) :
    Statement.parseAll (lines.map Line.render) = .ok (takenFrom 1 lines) := by
  have hfrom : ∀ first, ((lines.map Line.render).zipIdx first).mapM
      (fun x => Statement.parse x.2 x.1) = .ok (takenFrom first lines) := by
    induction lines with
    | nil => exact fun _ => rfl
    | cons l ls ih =>
        intro first
        obtain ⟨hl, hls⟩ := List.forall_mem_cons.1 h
        rw [List.map_cons, List.zipIdx_cons]
        exact mapM_cons_ok_iff.2 ⟨_, _, parse_legible first hl, ih hls (first + 1), rfl⟩
  exact hfrom 1

/-! ### Names and remarks -/

/-- The lines without words on which nothing depends. -/
def Line.isAside : Line → Bool
  | visible _ | comment _ | label (.named _) => true
  | _ => false

/-- The other lines. -/
def bare (lines : List Line) : List Line := lines.filter fun l => !l.isAside

/-- The names of the program that are labels of a listing. -/
def foreignLabels (lines : List Line) : List Text :=
  (lines.filter Line.isAside).flatMap Line.labels

/-- A listing whose lines are taken apart, and whose names of the program are told apart. -/
structure Told (lines : List Line) : Prop where
  legible : ∀ l ∈ lines, l.Legible
  once : (foreignLabels lines).Nodup

theorem Complete.told {lines : List Line} (h : Complete lines) : Told lines where
  legible l hl := (h.readable l hl).legible
  once := h.once.sublist (List.filter_sublist.flatMap Line.labels)

section Aside

variable {l : Line}

theorem Line.instruction_aside (h : l.isAside) : l.instruction = none := by
  cases l with
  | code _ _ | nothingFor _ => cases h
  | _ => rfl

theorem Line.Legible.foreign (h : l.Legible) (haside : l.isAside) :
    ∀ t ∈ l.labels, IsForeign t := by
  cases l with
  | label l =>
      cases l with
      | named name =>
          intro t ht
          have ht : t ∈ namedLabels name := ht
          unfold namedLabels at ht
          split at ht
          · cases ht
          · rw [List.mem_singleton.1 ht]
            exact h
      | _ => cases haside
  | visible _ | comment _ => exact List.forall_mem_nil _
  | _ => cases haside

theorem Line.not_isForeign_labels (haside : l.isAside = false) : ∀ t ∈ l.labels, ¬IsForeign t := by
  cases l with
  | label l =>
      cases l with
      | named name => cases haside
      | _ => exact List.forall_mem_singleton.2 (not_isForeign_render rfl)
  | place offset ins => exact List.forall_mem_singleton.2 (not_isForeign_render rfl)
  | visible _ | comment _ => cases haside
  | _ => exact List.forall_mem_nil _

end Aside

/-! ### The first pass -/

/-- What a record says of its instruction, on whatever line that stands. -/
def content (x : Sized) : Mnemonic × List Text × Nat := (x.mnemonic, x.operands, x.words)

/-- Plans that are encoded to the same words. -/
structure Alike (p q : Plan) : Prop where
  address : p.address = q.address
  sized : p.sized.toList.map content = q.sized.toList.map content
  labels : Agree p.labels q.labels
  /-- No instruction uses a foreign name. -/
  own : ∀ x ∈ p.sized.toList, ∀ t ∈ x.operands, ¬IsForeign t

section Alike

variable {elide : Bool} {p q : Plan} {l : Line} {n n' : Nat}

/-- A name or a remark that is new changes nothing that matters. -/
theorem Alike.aside (h : Alike p q) (hl : l.Legible) (haside : l.isAside)
    (hnew : ∀ t ∈ l.labels, p.labels[t]? = none) (elide : Bool) (n : Nat) :
    ∃ r, p.add elide (l.taken n) = .ok r ∧ Alike r q ∧
      ∀ t, t ∉ l.labels → r.labels[t]? = p.labels[t]? := by
  obtain ⟨r, hr⟩ := define_all l.nodup_labels hnew
  obtain ⟨haddress, hsized, hdefined⟩ := Plan.define_all_ok hr
  refine ⟨r, ?_, ⟨?_, ?_, ?_, ?_⟩, fun t => hdefined.other⟩
  · refine bind_ok_iff.2 ⟨r, hr, ?_⟩
    rw [Line.taken, Line.instruction_aside haside]
    rfl
  · rw [haddress, h.address]
  · rw [hsized, h.sized]
  · intro t ht
    rw [hdefined.other fun hmem => ht (hl.foreign haside t hmem), h.labels t ht]
  · rw [hsized]
    exact h.own

/-- Labels of lowering are new in one plan if they are new in the other. -/
theorem Alike.define (h : Alike p q) {t : Text} (ht : ¬IsForeign t) :
    Together Alike (p.define t) (q.define t) := by
  have hcontains : p.labels.contains t = q.labels.contains t := by
    rw [Std.HashMap.contains_eq_isSome_getElem?, Std.HashMap.contains_eq_isSome_getElem?,
      h.labels t ht]
  rw [Plan.define, Plan.define, hcontains]
  split
  · exact .error trivial
  · refine .ok ⟨h.address, h.sized, fun u hu => ?_, h.own⟩
    rw [Std.HashMap.getElem?_insert, Std.HashMap.getElem?_insert, h.address, h.labels u hu]

/-- An instruction takes as many words in one plan as in the other. -/
theorem Alike.place (h : Alike p q) {s s' : Statement} {w : Written}
    (hw : ∀ t ∈ w.operands, ¬IsForeign t) :
    Together Alike (p.place elide s w) (q.place elide s' w) := by
  unfold Plan.place
  split
  · exact .error trivial
  next m hm =>
    rw [m.size_congr (fun t ht => h.labels t (hw t ht)) elide]
    cases m.size elide q.labels w.operands with
    | error cause => exact .error trivial
    | ok words =>
        refine .ok ⟨?_, ?_, h.labels, ?_⟩
        · rw [h.address]
        · simp only [Array.toList_push, List.map_append, h.sized]
          rfl
        · simp only [Array.toList_push, List.forall_mem_append]
          exact ⟨h.own, List.forall_mem_singleton.2 hw⟩

/-- **The same line keeps plans alike**, whatever its number is. -/
theorem Alike.line (h : Alike p q) (hl : l.Legible) (haside : l.isAside = false) :
    Together Alike (p.add elide (l.taken n)) (q.add elide (l.taken n')) := by
  have hlabels : Together Alike (l.labels.foldlM Plan.define p) (l.labels.foldlM Plan.define q) :=
    Paired.foldlM (Q := fun t t' => t = t' ∧ ¬IsForeign t)
      (List.forall₂_same.2 fun t ht => ⟨rfl, Line.not_isForeign_labels haside t ht⟩)
      (by rintro t _ ⟨rfl, ht⟩ p q h; exact h.define ht) h
  refine hlabels.bind fun p q h => ?_
  simp only [Line.taken]
  cases hw : l.instruction with
  | none => exact .ok h
  | some w => exact h.place (hl.operands hw)

/-- **The first pass lays out a listing as it does without names and remarks.** -/
theorem alike_bare {lines : List Line} (hlines : Told lines)
    (hnew : ∀ t ∈ foreignLabels lines, p.labels[t]? = none) (h : Alike p q) :
    Together Alike ((takenFrom n lines).foldlM (Plan.add elide) p)
      ((takenFrom n' (bare lines)).foldlM (Plan.add elide) q) := by
  induction lines generalizing p q n n' with
  | nil => exact .ok h
  | cons l lines ih =>
      obtain ⟨hl, hlegible⟩ := List.forall_mem_cons.1 hlines.legible
      cases haside : l.isAside with
      | true =>
          have honce := hlines.once
          have hforeign : foreignLabels (l :: lines) = l.labels ++ foreignLabels lines := by
            rw [foreignLabels, List.filter_cons_of_pos haside, List.flatMap_cons]
            rfl
          rw [hforeign, List.nodup_append] at honce
          rw [hforeign, List.forall_mem_append] at hnew
          obtain ⟨r, hr, hr', hkeep⟩ := h.aside hl haside hnew.1 elide n
          rw [bare, List.filter_cons_of_neg (by simp [haside]), takenFrom, List.foldlM_cons, hr,
            ok_bind]
          refine ih ⟨hlegible, honce.2.1⟩ (fun t ht => ?_) hr'
          rw [hkeep t fun hmem => honce.2.2 t hmem t ht rfl, hnew.2 t ht]
      | false =>
          have hforeign : foreignLabels (l :: lines) = foreignLabels lines := by
            rw [foreignLabels, List.filter_cons_of_neg (by simp [haside])]
            rfl
          have honce := hlines.once
          rw [hforeign] at honce hnew
          rw [bare, List.filter_cons_of_pos (by simp [haside]), takenFrom, takenFrom,
            List.foldlM_cons, List.foldlM_cons]
          refine (h.line hl haside).left.bind fun r r' hr => ih ⟨hlegible, honce⟩ ?_ hr.2
          -- what the line defines is none of the names behind it
          intro t ht
          obtain ⟨hdefined, -⟩ := Plan.add_ok hr.1
          rw [hdefined.other fun hmem => Line.not_isForeign_labels haside t hmem ?_, hnew t ht]
          obtain ⟨l', hl', ht⟩ := List.mem_flatMap.1 ht
          obtain ⟨hmem, haside'⟩ := List.mem_filter.1 hl'
          exact (hlegible l' hmem).foreign haside' t ht

end Alike

/-! ### The second pass -/

/-- A record is encoded to the same words, with tables that agree. -/
theorem add_congr {x y : Sized} (hcontent : content x = content y)
    (hown : ∀ t ∈ x.operands, ¬IsForeign t) {i j : Image}
    (h : i.words = j.words ∧ Agree i.labels j.labels) :
    Together (fun i' j' => i'.words = j'.words ∧ Agree i'.labels j'.labels)
      (i.add x) (j.add y) := by
  simp only [content, Prod.mk.injEq] at hcontent
  obtain ⟨hm, hoperands, hwords⟩ := hcontent
  rw [Image.add, Image.add, Image.endAddress, Image.endAddress, h.1, ← hm, ← hoperands, ← hwords,
    x.mnemonic.encode_congr fun t ht => h.2 t (hown t ht)]
  cases x.mnemonic.encode j.labels (j.words.size.toUInt32 * 4) x.words x.operands with
  | error cause => exact .error trivial
  | ok ws =>
      simp only [ok_bind]
      split
      · exact .ok ⟨rfl, h.2⟩
      · exact .error trivial

theorem Alike.emit {p q : Plan} (h : Alike p q) :
    Together (fun i j => i.words = j.words) (Assembly.emit p) (Assembly.emit q) := by
  have hrecords : List.Forall₂ (fun x y => content x = content y ∧ ∀ t ∈ x.operands, ¬IsForeign t)
      p.sized.toList q.sized.toList := by
    have hcontent := h.sized
    rw [← List.forall₂_eq_eq_eq, List.forall₂_map_left_iff, List.forall₂_map_right_iff] at hcontent
    have hboth := (List.forall₂_and_left _ _).2 ⟨h.own, hcontent⟩
    exact hboth.imp fun _ _ => And.symm
  have hall := Paired.foldlM (f := Image.add) (g := Image.add) hrecords
    (fun x y hxy i j hij => add_congr hxy.1 hxy.2 hij) (a := { labels := p.labels })
    (b := { labels := q.labels }) ⟨rfl, h.labels⟩
  have hwords := hall.mono (fun _ _ => id) fun _ _ => And.left
  unfold Assembly.emit
  exact hwords.congr (fun _ => foldlM_mapError_ok_iff) fun _ => foldlM_mapError_ok_iff

/-! ### Both passes -/

variable {lines lines' : List Line}

theorem told_bare (h : Told lines) : Told (bare lines) := by
  refine ⟨fun l hl => h.legible l (List.mem_of_mem_filter hl), ?_⟩
  have hnone : (bare lines).filter Line.isAside = [] := by
    rw [bare, List.filter_filter]
    simp
  rw [foreignLabels, hnone]
  exact List.nodup_nil

theorem words_bare (h : Told lines) (elide : Bool) :
    Together (fun i j => i.words = j.words) (assemble elide (lines.map Line.render))
      (assemble elide ((bare lines).map Line.render)) := by
  have hempty : Alike {} {} := ⟨rfl, rfl, fun _ _ => rfl, List.forall_mem_nil _⟩
  have hlaid : Together Alike (layOut elide (takenFrom 1 lines))
      (layOut elide (takenFrom 1 (bare lines))) := by
    unfold layOut
    exact (alike_bare h (by simp) hempty).congr (fun _ => foldlM_mapError_ok_iff)
      fun _ => foldlM_mapError_ok_iff
  rw [assemble, assemble, parseAll_legible h.legible,
    parseAll_legible (told_bare h).legible, ok_bind, ok_bind]
  exact (hlaid.bind fun p q h => h.emit).mapError fun _ _ => id

/-- **Listings that only differ in names and remarks have the same words**, or none of them is
assembled. -/
theorem words_of_bare (h : Told lines) (h' : Told lines') (hbare : bare lines = bare lines')
    (elide : Bool) :
    Together (fun i j => i.words = j.words) (assemble elide (lines.map Line.render))
      (assemble elide (lines'.map Line.render)) := by
  have hleft := words_bare h elide
  rw [hbare] at hleft
  exact hleft.trans (words_bare h' elide).symm (fun _ _ _ _ => id)
    fun _ _ _ hi hj => hi.trans hj.symm

/-- If nothing is missing in two listings that only differ in names and remarks, and one of them is
assembled, then so is the other, to the same words. -/
theorem assemble_of_bare (h : Complete lines) (h' : Complete lines')
    (hbare : bare lines = bare lines') {elide : Bool} {image : Image}
    (himage : assemble elide (lines.map Line.render) = .ok image) :
    ∃ image', assemble elide (lines'.map Line.render) = .ok image' ∧
      image'.words = image.words := by
  obtain ⟨image', himage', hwords⟩ :=
    (together_iff.1 (words_of_bare h.told h'.told hbare elide)).1 image himage
  exact ⟨image', himage', hwords.symm⟩

end Listing

end StackCompiler
