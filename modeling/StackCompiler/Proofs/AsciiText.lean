/-
**Texts of plain characters.**

Trimming, splitting into fields, lower case and identifiers are defined on characters, since any
text can occur.  On a text whose bytes are all below 128 every byte is a character of its own, and
the four operations come down to what they do to bytes.

* `Text.fields_word_blank`, `Text.fields_blanks` — **the fields of a text are the words that blanks
  separate**.
-/

import Mathlib.Data.List.TakeDrop
import Mathlib.Data.List.TakeWhile
import StackCompiler.Text.Blank
import StackCompiler.Text.Letter
import StackCompiler.Text.Lowercase

namespace StackCompiler.Text

/-! ### Bytes as characters -/

/-- A text of ASCII characters. -/
def Ascii (t : Text) : Prop := ∀ c ∈ t, c < 0x80

instance (t : Text) : Decidable (Ascii t) := List.decidableBAll (fun c => c < 0x80) t

/-- The character that a byte below 128 stands for. -/
def letter (c : UInt8) : Piece := .char (Char.ofNat c.toNat)

variable {t : Text} {c : UInt8}

theorem Ascii.append {s : Text} (hs : Ascii s) (ht : Ascii t) : Ascii (s ++ t) := by
  intro c hc
  rcases List.mem_append.1 hc with hc | hc
  · exact hs c hc
  · exact ht c hc

theorem ascii_cons : Ascii (c :: t) ↔ c < 0x80 ∧ Ascii t := by
  simp [Ascii]

theorem ascii_nil : Ascii [] := by
  intro c hc
  cases hc

/-- Facts about bytes below 128 are checked one by one. -/
theorem forall_lt_128 {P : UInt8 → Prop} (h : ∀ n < 128, P n.toUInt8) (hc : c < 0x80) : P c := by
  have hlt : c.toNat < 128 := UInt8.lt_iff_toNat_lt.1 hc
  have := h c.toNat hlt
  rwa [Nat.toUInt8_eq, UInt8.ofNat_toNat] at this

theorem bytes_letter (h : c < 0x80) : (letter c).bytes = [c] :=
  forall_lt_128 (P := fun c => (letter c).bytes = [c]) (by decide) h

theorem piecesFrom_ascii (h : Ascii t) (seen : List Piece) :
    piecesFrom t.length t seen = seen.reverse ++ t.map letter := by
  induction t generalizing seen with
  | nil => simp [piecesFrom]
  | cons c t ih =>
      obtain ⟨hc, ht⟩ := ascii_cons.1 h
      simp only [List.length_cons, piecesFrom, headChar?, hc, if_true]
      rw [ih ht]
      simp [letter]

/-- **The characters of a plain text are its bytes.** -/
theorem pieces_ascii (h : Ascii t) : pieces t = t.map letter := by
  rw [pieces, piecesFrom_ascii h]
  rfl

theorem ofPieces_letters (h : Ascii t) : ofPieces (t.map letter) = t := by
  induction t with
  | nil => rfl
  | cons c t ih =>
      obtain ⟨hc, ht⟩ := ascii_cons.1 h
      rw [ofPieces, List.map_cons, List.flatMap_cons, bytes_letter hc]
      exact congrArg (c :: ·) (ih ht)

/-! ### Blanks -/

/-- The ASCII characters that are blank. -/
def blankByte (c : UInt8) : Bool := (9 ≤ c && c ≤ 13) || c == 32

theorem isBlank_letter (h : c < 0x80) : isBlank (letter c) = blankByte c :=
  forall_lt_128 (P := fun c => isBlank (letter c) = blankByte c) (by decide) h

theorem dropWhile_letters (h : Ascii t) :
    (t.map letter).dropWhile isBlank = (t.dropWhile blankByte).map letter := by
  induction t with
  | nil => rfl
  | cons c t ih =>
      obtain ⟨hc, ht⟩ := ascii_cons.1 h
      rw [List.map_cons, List.dropWhile_cons, List.dropWhile_cons, isBlank_letter hc, ih ht]
      split <;> rfl

theorem Ascii.dropWhile (h : Ascii t) (p : UInt8 → Bool) : Ascii (t.dropWhile p) :=
  fun c hc => h c ((List.dropWhile_sublist p).mem hc)

theorem Ascii.reverse (h : Ascii t) : Ascii t.reverse :=
  fun c hc => h c (List.mem_reverse.1 hc)

theorem trim_ascii (h : Ascii t) :
    trim t = ((t.dropWhile blankByte).reverse.dropWhile blankByte).reverse := by
  have h₁ := (h.dropWhile blankByte).reverse
  rw [trim, pieces_ascii h, dropWhile_letters h, ← List.map_reverse, dropWhile_letters h₁,
    ← List.map_reverse, ofPieces_letters (h₁.dropWhile blankByte).reverse]

theorem dropWhile_blanks {a : Text} (ha : ∀ c ∈ a, blankByte c)
    (ht : ∀ c, t.head? = some c → blankByte c = false) : (a ++ t).dropWhile blankByte = t := by
  induction a with
  | nil =>
      cases t with
      | nil => rfl
      | cons c t => rw [List.nil_append, List.dropWhile_cons, ht c rfl]; rfl
  | cons c a ih =>
      rw [List.cons_append, List.dropWhile_cons, ha c List.mem_cons_self, if_pos rfl]
      exact ih fun d hd => ha d (List.mem_cons_of_mem c hd)

/-- **Trimming removes what is blank around a text.** -/
theorem trim_between {a b : Text} (ht : Ascii t) (ha : ∀ c ∈ a, blankByte c)
    (hb : ∀ c ∈ b, blankByte c) (hhead : ∀ c, t.head? = some c → blankByte c = false)
    (hlast : ∀ c, t.getLast? = some c → blankByte c = false) : trim (a ++ t ++ b) = t := by
  have hblank : ∀ {s : Text}, (∀ c ∈ s, blankByte c) → Ascii s := by
    intro s hs c hc
    have hc' := hs c hc
    simp only [blankByte, Bool.or_eq_true, Bool.and_eq_true, decide_eq_true_eq, beq_iff_eq] at hc'
    rcases hc' with ⟨-, hc'⟩ | rfl
    · exact UInt8.lt_of_le_of_lt hc' (by decide)
    · decide
  rw [trim_ascii (((hblank ha).append ht).append (hblank hb))]
  cases t with
  | nil =>
      -- nothing is left: the blanks behind go away with those in front
      have hall : ∀ c ∈ a ++ b, blankByte c := by
        intro c hc
        rcases List.mem_append.1 hc with hc | hc
        · exact ha c hc
        · exact hb c hc
      have := dropWhile_blanks (t := []) hall (by simp)
      rw [List.append_nil] at this
      rw [List.append_nil, this]
      rfl
  | cons c t =>
      rw [List.append_assoc, dropWhile_blanks ha (by simpa using hhead c rfl), List.reverse_append,
        dropWhile_blanks (fun d hd => hb d (List.mem_reverse.1 hd)), List.reverse_reverse]
      intro d hd
      exact hlast d (by rwa [List.head?_reverse] at hd)

/-! ### Cutting -/

theorem cut_not_mem (h : ∀ d ∈ t, d ≠ c) : cut c t = (t, none) := by
  have hall : ∀ d ∈ t, (d != c) = true := fun d hd => by simpa using h d hd
  rw [cut, List.span_eq_takeWhile_dropWhile, List.takeWhile_eq_self_iff.2 hall,
    List.dropWhile_eq_nil_iff.2 hall]

theorem cut_append {front : Text} (h : ∀ d ∈ front, d ≠ c) (rest : Text) :
    cut c (front ++ c :: rest) = (front, some rest) := by
  have hall : ∀ d ∈ front, (d != c) = true := fun d hd => by simpa using h d hd
  rw [cut, List.span_eq_takeWhile_dropWhile, List.takeWhile_append_of_pos hall,
    List.dropWhile_append_of_pos hall]
  simp

theorem cut_eq_some {front rest : Text} (h : cut c t = (front, some rest)) :
    t = front ++ c :: rest ∧ ∀ d ∈ front, d ≠ c := by
  by_cases hc : c ∈ t
  · obtain ⟨s, u, rfl, hs⟩ := List.eq_append_cons_of_mem hc
    have hne : ∀ d ∈ s, d ≠ c := fun d hd hdc => hs (hdc ▸ hd)
    rw [cut_append hne] at h
    cases h
    exact ⟨rfl, hne⟩
  · have hne : ∀ d ∈ t, d ≠ c := fun d hd hdc => hc (hdc ▸ hd)
    rw [cut_not_mem hne] at h
    cases h

/-! ### Fields -/

/-- A nonempty plain text without blanks. -/
structure IsWord (w : Text) : Prop where
  ne_nil : w ≠ []
  ascii : Ascii w
  notBlank : ∀ c ∈ w, blankByte c = false

/-- The runs that `fieldsOf` chooses from. -/
def runsOf (ps : List Piece) : List (List Piece) :=
  ps.foldr (fun p parts => if isBlank p then [] :: parts else parts.modifyHead (p :: ·)) [[]]

theorem fieldsOf_eq (ps : List Piece) : fieldsOf ps = (runsOf ps).filter (! ·.isEmpty) := rfl

variable {ps : List Piece}

theorem runsOf_append (h : ∀ p ∈ ps, isBlank p = false) (rest : List Piece) :
    runsOf (ps ++ rest) = (runsOf rest).modifyHead (ps ++ ·) := by
  induction ps with
  | nil =>
      rw [List.nil_append]
      cases runsOf rest <;> rfl
  | cons p ps ih =>
      have hp := h p List.mem_cons_self
      have hrec := ih fun q hq => h q (List.mem_cons_of_mem p hq)
      rw [List.cons_append, runsOf, List.foldr_cons, hp, if_neg Bool.false_ne_true, ← runsOf, hrec]
      cases runsOf rest <;> rfl

theorem fieldsOf_blank {p : Piece} (h : isBlank p) (rest : List Piece) :
    fieldsOf (p :: rest) = fieldsOf rest := by
  rw [fieldsOf_eq, fieldsOf_eq, runsOf, List.foldr_cons, if_pos h]
  rfl

theorem fieldsOf_word_blank {p : Piece} (hne : ps ≠ []) (hps : ∀ q ∈ ps, isBlank q = false)
    (hp : isBlank p) (rest : List Piece) :
    fieldsOf (ps ++ p :: rest) = ps :: fieldsOf rest := by
  have hrest : runsOf (p :: rest) = [] :: runsOf rest := by
    rw [runsOf, List.foldr_cons, if_pos hp]
    rfl
  rw [fieldsOf_eq, runsOf_append hps, hrest, fieldsOf_eq, List.modifyHead_cons, List.append_nil,
    List.filter_cons, if_pos (by simpa using hne)]

theorem fieldsOf_word (hne : ps ≠ []) (hps : ∀ q ∈ ps, isBlank q = false) :
    fieldsOf ps = [ps] := by
  have := runsOf_append hps []
  rw [List.append_nil] at this
  rw [fieldsOf_eq, this]
  simpa [runsOf] using hne

theorem IsWord.letters {w : Text} (h : IsWord w) : ∀ q ∈ w.map letter, isBlank q = false := by
  intro q hq
  obtain ⟨c, hc, rfl⟩ := List.mem_map.1 hq
  rw [isBlank_letter (h.ascii c hc), h.notBlank c hc]

/-- Blanks in front of a text belong to no field. -/
theorem fields_blanks {s : Text} (hs : ∀ c ∈ s, c < 0x80 ∧ blankByte c) (ht : Ascii t) :
    fields (s ++ t) = fields t := by
  induction s with
  | nil => rfl
  | cons c s ih =>
      have hrec := ih fun d hd => hs d (List.mem_cons_of_mem c hd)
      have hsa : Ascii (s ++ t) :=
        Ascii.append (fun d hd => (hs d (List.mem_cons_of_mem c hd)).1) ht
      obtain ⟨hc, hblank⟩ := hs c List.mem_cons_self
      rw [← hrec, fields, fields, List.cons_append, pieces_ascii (ascii_cons.2 ⟨hc, hsa⟩),
        List.map_cons, fieldsOf_blank (by rw [isBlank_letter hc, hblank]), pieces_ascii hsa]

/-- A word before a blank is a field. -/
theorem fields_word_blank {w : Text} (hw : IsWord w) (hc : c < 0x80) (hblank : blankByte c)
    (ht : Ascii t) : fields (w ++ c :: t) = w :: fields t := by
  have hct : Ascii (c :: t) := ascii_cons.2 ⟨hc, ht⟩
  rw [fields, fields, pieces_ascii (hw.ascii.append hct), List.map_append, List.map_cons,
    fieldsOf_word_blank (by simpa using hw.ne_nil) hw.letters (by rw [isBlank_letter hc, hblank]),
    List.map_cons, ofPieces_letters hw.ascii, pieces_ascii ht]

theorem fields_word {w : Text} (hw : IsWord w) : fields w = [w] := by
  rw [fields, pieces_ascii hw.ascii, fieldsOf_word (by simpa using hw.ne_nil) hw.letters,
    List.map_singleton, ofPieces_letters hw.ascii]

/-! ### Identifiers -/

/-- The ASCII characters with which a name may start. -/
def startsName (c : UInt8) : Bool :=
  c == 95 || c == 46 || (65 ≤ c && c ≤ 90) || (97 ≤ c && c ≤ 122)

theorem startsIdentifier_letter (h : c < 0x80) : startsIdentifier (letter c) = startsName c :=
  forall_lt_128 (P := fun c => startsIdentifier (letter c) = startsName c) (by decide) h

theorem isDigit_letter (h : c < 0x80) : isDigit (letter c) = (48 ≤ c && c ≤ 57) :=
  forall_lt_128 (P := fun c => isDigit (letter c) = (48 ≤ c && c ≤ 57)) (by decide) h

/-- **A plain text names a label** if it starts as a name does and goes on with such bytes and
digits. -/
theorem isIdentifier_cons (h : Ascii (c :: t)) :
    isIdentifier (c :: t) =
      (startsName c && t.all fun d => startsName d || (48 ≤ d && d ≤ 57)) := by
  obtain ⟨hc, ht⟩ := ascii_cons.1 h
  rw [isIdentifier, pieces_ascii h]
  simp only [List.map_cons, startsIdentifier_letter hc, List.all_map]
  congr 1
  rw [Bool.eq_iff_iff, List.all_eq_true, List.all_eq_true]
  refine forall_congr' fun d => forall_congr' fun hd => ?_
  rw [Function.comp_apply, startsIdentifier_letter (ht d hd), isDigit_letter (ht d hd)]

end StackCompiler.Text
