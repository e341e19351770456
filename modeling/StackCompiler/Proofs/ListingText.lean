/-
**Lines are read back.**

Lowering writes lines as text and the assembler takes the text apart again.  For the labels, the
registers and the numbers that lowering writes, nothing is lost on the way: the statement of a line
holds its mnemonic and its operands in order, or the label that the line defines.  Names that the
program brings along are left out here, since they may be anything.

* `Listing.parse_code` — **the statement of an instruction line**.
-/

import Mathlib.Data.List.Basic
import Mathlib.Data.List.TakeDrop
import Mathlib.Data.List.TakeWhile
import StackCompiler.Assembly.Operand
import StackCompiler.Assembly.Statement
import StackCompiler.Lowering.Listing
import StackCompiler.Proofs.AsciiText
import StackCompiler.Proofs.NumeralText

namespace StackCompiler.Listing

open Assembly (Statement Mnemonic)
open Numeral (decimal signed hex digit)
open Text (Ascii IsWord blankByte cut fields fields_word_blank join startsName toLower
  trim_between upTo)
open Assembly.Statement (blankSeparators isDirective parse significant takeLabels)

/-! ### Tokens -/

/-- A visible byte that separates nothing: no comma, no parenthesis, no colon and no `#`. -/
def plainByte (c : UInt8) : Bool :=
  33 ≤ c && c ≤ 126 && c != 35 && c != 40 && c != 41 && c != 44 && c != 58

/-- A nonempty text of such bytes. -/
structure Token (t : Text) : Prop where
  ne_nil : t ≠ []
  plain : ∀ c ∈ t, plainByte c

variable {c : UInt8} {t : Text} {l : Label}

theorem plainByte_iff :
    plainByte c ↔ (33 ≤ c ∧ c ≤ 126) ∧ c ≠ 35 ∧ c ≠ 40 ∧ c ≠ 41 ∧ c ≠ 44 ∧ c ≠ 58 := by
  simp [plainByte, and_assoc]

theorem plainByte_lt (h : plainByte c) : c < 0x80 :=
  UInt8.lt_of_le_of_lt (plainByte_iff.1 h).1.2 (by decide)

theorem plainByte_notBlank (h : plainByte c) : blankByte c = false :=
  Text.forall_lt_128 (P := fun c => plainByte c → blankByte c = false) (by decide)
    (plainByte_lt h) h

theorem Token.ascii (h : Token t) : Ascii t := fun c hc => plainByte_lt (h.plain c hc)

theorem Token.isWord (h : Token t) : IsWord t :=
  ⟨h.ne_nil, h.ascii, fun c hc => plainByte_notBlank (h.plain c hc)⟩

theorem Token.append {s : Text} (hs : Token s) (ht : ∀ c ∈ t, plainByte c) : Token (s ++ t) := by
  refine ⟨List.append_ne_nil_of_left_ne_nil hs.ne_nil t, ?_⟩
  intro c hc
  rcases List.mem_append.1 hc with hc | hc
  · exact hs.plain c hc
  · exact ht c hc

theorem token_of_all (h : !t.isEmpty && t.all plainByte) : Token t := by
  rw [Bool.and_eq_true, List.all_eq_true] at h
  exact ⟨by simpa using h.1, h.2⟩

/-! ### Numerals, registers and labels are tokens -/

theorem plain_write {base n : Nat} (hbase : 2 ≤ base ∧ base ≤ 16) :
    ∀ c ∈ Numeral.write base n, plainByte c := by
  intro c hc
  obtain ⟨d, hd, rfl⟩ := Numeral.mem_write hbase.1 hc
  have : ∀ d < 16, plainByte (digit d) := by decide
  exact this d (by omega)

theorem token_decimal (n : Nat) : Token (decimal n) := by
  obtain ⟨d, rest, h, -, -⟩ := Numeral.write_eq_cons 10 (by decide) n
  refine ⟨?_, plain_write (by decide)⟩
  rw [decimal, h]
  exact List.cons_ne_nil _ _

theorem token_signed (n : Int) : Token (signed n) := by
  cases n with
  | ofNat n => exact token_decimal n
  | negSucc n =>
      exact (token_of_all (t := [45]) (by decide)).append (token_decimal (n + 1)).plain

theorem token_hex (n : Nat) : Token (text "0x" ++ hex n) :=
  (token_of_all (by decide)).append (plain_write (by decide))

theorem token_name (r : Register) : Token r.name := by
  have hall : ∀ t ∈ Register.names, !t.isEmpty && t.all plainByte := by decide
  unfold Register.name
  cases h : Register.names[r.toNat]? with
  | none => exact (token_of_all (by decide)).append (token_decimal r.toNat).plain
  | some t => exact token_of_all (hall t (List.mem_of_getElem? h))

/-- Whether lowering makes a label itself. -/
def Label.isMade : Label → Bool
  | named _ => false
  | _ => true

/-- A byte of a name: a letter, a digit or an underscore. -/
def nameByte (c : UInt8) : Bool := startsName c || (48 ≤ c && c ≤ 57)

theorem nameByte_decimal (n : Nat) : ∀ c ∈ decimal n, nameByte c := by
  intro c hc
  obtain ⟨d, hd, rfl⟩ := Numeral.mem_write (by decide) hc
  have : ∀ d < 10, nameByte (digit d) := by decide
  exact this d hd

/-- The label of an offset with something behind it. -/
theorem label_parts (n : Nat) (suffix : Text) (h : suffix.all nameByte) :
    ∃ c t, text "L" ++ decimal n ++ suffix = c :: t ∧ startsName c ∧ c ≠ 46 ∧
      ∀ d ∈ t, nameByte d := by
  refine ⟨76, decimal n ++ suffix, rfl, by decide, by decide, ?_⟩
  intro d hd
  rcases List.mem_append.1 hd with hd | hd
  · exact nameByte_decimal n d hd
  · exact List.all_eq_true.1 h d hd

/-- A label that lowering makes starts with a letter and goes on as a name does. -/
theorem Label.render_eq_cons (h : l.isMade) :
    ∃ c t, l.render = c :: t ∧ startsName c ∧ c ≠ 46 ∧ ∀ d ∈ t, nameByte d := by
  cases l with
  | named name => cases h
  | main =>
      exact ⟨109, text "ain", rfl, by decide, by decide, List.all_eq_true.1 (by decide)⟩
  | exit =>
      exact ⟨76, text "_exit", rfl, by decide, by decide, List.all_eq_true.1 (by decide)⟩
  | exitStatus =>
      exact ⟨76, text "_exit_status", rfl, by decide, by decide, List.all_eq_true.1 (by decide)⟩
  | start offset => exact ⟨76, decimal offset, rfl, by decide, by decide, nameByte_decimal offset⟩
  | returned offset => exact label_parts offset (text "_ret") (by decide)
  | status offset => exact label_parts offset (text "_exit") (by decide)
  | restore offset => exact label_parts offset (text "_restore") (by decide)
  | done offset => exact label_parts offset (text "_done") (by decide)

theorem nameByte_lt (h : nameByte c) : c < 0x80 := by
  simp only [nameByte, startsName, Bool.or_eq_true, Bool.and_eq_true, decide_eq_true_eq,
    beq_iff_eq] at h
  rcases h with (((rfl | rfl) | ⟨-, h⟩) | ⟨-, h⟩) | ⟨-, h⟩
  iterate 2 · decide
  all_goals exact UInt8.lt_of_le_of_lt h (by decide)

theorem plainByte_of_nameByte (h : nameByte c) : plainByte c :=
  Text.forall_lt_128 (P := fun c => nameByte c → plainByte c) (by decide) (nameByte_lt h) h

theorem Label.token (h : l.isMade) : Token l.render := by
  obtain ⟨c, t, hl, hc, -, ht⟩ := l.render_eq_cons h
  rw [hl]
  refine ⟨List.cons_ne_nil c t, ?_⟩
  intro d hd
  rcases List.mem_cons.1 hd with rfl | hd
  · exact plainByte_of_nameByte (by simp [nameByte, hc])
  · exact plainByte_of_nameByte (ht d hd)

/-- **A label that lowering makes is an identifier.** -/
theorem Label.isIdentifier_render (h : l.isMade) : Text.isIdentifier l.render := by
  have hascii := (l.token h).ascii
  obtain ⟨c, t, hl, hc, -, ht⟩ := l.render_eq_cons h
  rw [hl] at hascii ⊢
  rw [Text.isIdentifier_cons hascii, hc, Bool.true_and, List.all_eq_true]
  exact ht

/-! ### Operands -/

/-- The words of an operand. -/
def Operand.words : Operand → List Text
  | register r => [r.name]
  | number n => [signed n]
  | address a => [text "0x" ++ hex a.toNat]
  | memory displacement base => [signed displacement, base.name]
  | label l => [l.render]

/-- Whether lowering makes the label of an operand itself. -/
def Operand.isMade : Operand → Bool
  | label l => l.isMade
  | _ => true

theorem blankSeparators_append (s t : Text) :
    blankSeparators (s ++ t) = blankSeparators s ++ blankSeparators t := by
  simp [blankSeparators]

theorem Token.blankSeparators (h : Token t) : blankSeparators t = t := by
  unfold Assembly.Statement.blankSeparators
  conv => rhs; rw [← List.map_id t]
  apply List.map_congr_left
  intro c hc
  obtain ⟨-, -, h40, h41, h44, -⟩ := plainByte_iff.1 (h.plain c hc)
  simp [h40, h41, h44]

/-- The bytes of lines: plain ones, separators and blanks. -/
def lineByte (c : UInt8) : Bool := c < 0x80 && c != 35 && c != 58

theorem lineByte_of_plainByte (h : plainByte c) : lineByte c := by
  obtain ⟨-, h35, -, -, -, h58⟩ := plainByte_iff.1 h
  simp [lineByte, plainByte_lt h, h35, h58]

theorem ascii_of_lineByte (h : ∀ c ∈ t, lineByte c) : Ascii t := by
  intro c hc
  have := h c hc
  simp only [lineByte, Bool.and_eq_true, decide_eq_true_eq] at this
  exact this.1.1

theorem lineByte_append {s : Text} (hs : ∀ c ∈ s, lineByte c) (ht : ∀ c ∈ t, lineByte c) :
    ∀ c ∈ s ++ t, lineByte c := by
  intro c hc
  rcases List.mem_append.1 hc with hc | hc
  · exact hs c hc
  · exact ht c hc

theorem ascii_blankSeparators (h : Ascii t) : Ascii (blankSeparators t) := by
  intro c hc
  obtain ⟨d, hd, rfl⟩ := List.mem_map.1 hc
  split
  · decide
  · exact h d hd

theorem Token.lineByte (h : Token t) : ∀ c ∈ t, lineByte c :=
  fun c hc => lineByte_of_plainByte (h.plain c hc)

theorem Token.notBlank_last (h : Token t) : ∀ c, t.getLast? = some c → blankByte c = false :=
  fun c hc => plainByte_notBlank (h.plain c (List.mem_of_getLast? hc))

/-- What is needed of the text of an operand: its bytes, its end, and its words. -/
structure Operand.Written (o : Operand) : Prop where
  ne_nil : o.render ≠ []
  bytes : ∀ c ∈ o.render, lineByte c
  last : ∀ c, o.render.getLast? = some c → blankByte c = false
  fields : fields (blankSeparators o.render) = o.words
  fields_blank : ∀ t, Ascii t →
    Text.fields (blankSeparators o.render ++ 32 :: t) = o.words ++ Text.fields t

theorem Operand.written_of_token {o : Operand} (h : Token o.render) (hw : o.words = [o.render]) :
    o.Written where
  ne_nil := h.ne_nil
  bytes := h.lineByte
  last := h.notBlank_last
  fields := by rw [h.blankSeparators, Text.fields_word h.isWord, hw]
  fields_blank t ht := by
    rw [h.blankSeparators, fields_word_blank h.isWord (by decide) (by decide) ht, hw]
    rfl

theorem Operand.written_memory (d : Int) (b : Register) : (Operand.memory d b).Written := by
  have hd := token_signed d
  have hb := token_name b
  -- the parentheses become blanks, so a displacement and its base are two words
  have hsep : blankSeparators (Operand.memory d b).render = signed d ++ 32 :: (b.name ++ [32]) := by
    simp only [Operand.render, blankSeparators_append, hd.blankSeparators, hb.blankSeparators]
    simp only [List.append_assoc]
    rfl
  refine ⟨?_, ?_, ?_, ?_, ?_⟩
  · simp [Operand.render, hd.ne_nil]
  · have hopen : ∀ c ∈ text "(", lineByte c := List.all_eq_true.1 (by decide)
    have hclose : ∀ c ∈ text ")", lineByte c := List.all_eq_true.1 (by decide)
    exact lineByte_append (lineByte_append (lineByte_append hd.lineByte hopen) hb.lineByte) hclose
  · intro c hc
    have : (Operand.memory d b).render.getLast? = some 41 := by
      rw [Operand.render, List.getLast?_append]
      rfl
    rw [this] at hc
    rw [← Option.some.inj hc]
    decide
  · rw [hsep, fields_word_blank hd.isWord (by decide) (by decide)
      (hb.ascii.append (by decide)), fields_word_blank hb.isWord (by decide) (by decide)
      Text.ascii_nil]
    rfl
  · intro t ht
    have ht' : Ascii (32 :: t) := Text.ascii_cons.2 ⟨by decide, ht⟩
    have hrest : Ascii (b.name ++ 32 :: 32 :: t) :=
      hb.ascii.append (Text.ascii_cons.2 ⟨by decide, ht'⟩)
    have hblank : Text.fields (32 :: t) = Text.fields t :=
      Text.fields_blanks (List.forall_mem_singleton.2 (by decide)) ht
    rw [hsep, List.append_assoc, List.cons_append, List.append_assoc, List.singleton_append,
      fields_word_blank hd.isWord (by decide) (by decide) hrest,
      fields_word_blank hb.isWord (by decide) (by decide) ht', hblank]
    rfl

theorem Operand.written {o : Operand} (h : o.isMade) : o.Written := by
  cases o with
  | register r => exact written_of_token (token_name r) rfl
  | number n => exact written_of_token (token_signed n) rfl
  | address a => exact written_of_token (token_hex a.toNat) rfl
  | memory d b => exact written_memory d b
  | label l => exact written_of_token (l.token h) rfl

/-- Operands with commas between them. -/
def listed (os : List Operand) : Text := join (text ", ") (os.map Operand.render)

theorem listed_cons (o o' : Operand) (os : List Operand) :
    listed (o :: o' :: os) = o.render ++ text ", " ++ listed (o' :: os) := by
  simp [listed, join, List.intercalate_cons_cons]

theorem listed_singleton (o : Operand) : listed [o] = o.render := by
  simp [listed, join]

/-- What holds of one operand holds of several. -/
theorem listed_written (o : Operand) (os : List Operand) (h : ∀ p ∈ o :: os, p.isMade) :
    listed (o :: os) ≠ [] ∧ (∀ c ∈ listed (o :: os), lineByte c) ∧
      (∀ c, (listed (o :: os)).getLast? = some c → blankByte c = false) ∧
      fields (blankSeparators (listed (o :: os))) = (o :: os).flatMap Operand.words := by
  induction os generalizing o with
  | nil =>
      have ho := Operand.written (h o List.mem_cons_self)
      rw [listed_singleton]
      exact ⟨ho.ne_nil, ho.bytes, ho.last, by rw [ho.fields]; simp⟩
  | cons o' os ih =>
      have ho := Operand.written (h o List.mem_cons_self)
      obtain ⟨hne, hbytes, hlast, hfields⟩ := ih o' fun p hp => h p (List.mem_cons_of_mem o hp)
      rw [listed_cons]
      refine ⟨?_, ?_, ?_, ?_⟩
      · exact List.append_ne_nil_of_right_ne_nil _ hne
      · have hcomma : ∀ c ∈ text ", ", lineByte c := List.all_eq_true.1 (by decide)
        exact lineByte_append (lineByte_append ho.bytes hcomma) hbytes
      · rwa [List.getLast?_append_of_ne_nil _ hne]
      · have hascii : Ascii (blankSeparators (listed (o' :: os))) :=
          ascii_blankSeparators (ascii_of_lineByte hbytes)
        -- a comma and the blank behind it are two blanks, and two are no more than one
        have hblank : fields (32 :: blankSeparators (listed (o' :: os))) =
            fields (blankSeparators (listed (o' :: os))) :=
          Text.fields_blanks (List.forall_mem_singleton.2 (by decide)) hascii
        rw [blankSeparators_append, blankSeparators_append, List.append_assoc,
          show blankSeparators (text ", ") = [32, 32] by decide, List.cons_append,
          List.singleton_append, ho.fields_blank _ (Text.ascii_cons.2 ⟨by decide, hascii⟩), hblank,
          hfields]
        simp

/-! ### Statements -/

theorem upTo_of_lineByte (h : ∀ c ∈ t, lineByte c) (rest : Text) :
    upTo 35 (t ++ rest) = t ++ upTo 35 rest := by
  unfold upTo
  rw [List.takeWhile_append_of_pos]
  intro c hc
  have := h c hc
  simp only [lineByte, Bool.and_eq_true] at this
  exact this.1.2

theorem cut_of_lineByte (h : ∀ c ∈ t, lineByte c) : cut 58 t = (t, none) := by
  refine Text.cut_not_mem ?_
  intro c hc
  have := h c hc
  simp only [lineByte, Bool.and_eq_true] at this
  simpa using this.2

/-- A line without labels is its mnemonic and its operands. -/
theorem parse_body {m : Text} {ws : List Text} (n : Nat) (hne : t ≠ [])
    (hbytes : ∀ c ∈ t, lineByte c) (hhead : ∀ c, t.head? = some c → blankByte c = false ∧ c ≠ 46)
    (hlast : ∀ c, t.getLast? = some c → blankByte c = false)
    (hfields : fields (blankSeparators t) = m :: ws) :
    parse n (9 :: t) = .ok ⟨n, 9 :: t, [], some ⟨toLower m, ws⟩⟩ := by
  have hsig : significant (9 :: t) = t := by
    have hup : upTo 35 (9 :: t) = [9] ++ t ++ [] := by
      have := upTo_of_lineByte (t := 9 :: t) ?_ []
      · rw [List.append_nil] at this
        rw [this]
        simp [upTo]
      · intro c hc
        rcases List.mem_cons.1 hc with rfl | hc
        · decide
        · exact hbytes c hc
    rw [significant, hup, trim_between (ascii_of_lineByte hbytes)
      (List.forall_mem_singleton.2 (by decide)) (by simp) (fun c hc => (hhead c hc).1) hlast]
  obtain ⟨c, t, rfl⟩ := List.exists_cons_of_ne_nil hne
  have hdir : isDirective (c :: t) = false := by
    simpa [isDirective] using (hhead c rfl).2
  have htake : takeLabels (c :: t).length (c :: t) [] = .ok ([], c :: t) := by
    simp only [List.length_cons, takeLabels, List.isEmpty_cons, hdir, cut_of_lineByte hbytes]
    rfl
  rw [parse, hsig, htake]
  simp [hdir, hfields]

theorem mem_named (m : Mnemonic) : (m.name, m) ∈ Mnemonic.named := by
  have hsome : (Mnemonic.named.find? (·.2 == m)).isSome := by
    cases m with
    | operation o => cases o <;> rfl
    | _ => rfl
  obtain ⟨⟨name, m'⟩, h⟩ := Option.isSome_iff_exists.1 hsome
  obtain rfl : m' = m := by simpa using List.find?_some h
  rw [Mnemonic.name, h]
  exact List.mem_of_find?_eq_some h

/-- The names of the table are tokens that start with no point, and each is recognized. -/
theorem named_recognized : ∀ q ∈ Mnemonic.named,
    (!(text q.1).isEmpty && (text q.1).all plainByte && (text q.1).head? != some 46) ∧
      Mnemonic.ofName? (toLower (text q.1)) = some q.2 := by
  decide +kernel

theorem token_mnemonic (m : Mnemonic) :
    Token (text m.name) ∧ ∀ c, (text m.name).head? = some c → c ≠ 46 := by
  have h := (named_recognized _ (mem_named m)).1
  rw [Bool.and_eq_true] at h
  refine ⟨token_of_all h.1, ?_⟩
  rintro c hc rfl
  simp [hc] at h

/-- **A mnemonic is recognized by its name.** -/
theorem ofName?_name (m : Mnemonic) : Mnemonic.ofName? (toLower (text m.name)) = some m :=
  (named_recognized _ (mem_named m)).2

/-- **The statement of an instruction line** holds its mnemonic and its operands in order. -/
theorem parse_code (n : Nat) (m : Mnemonic) {os : List Operand} (h : ∀ o ∈ os, o.isMade) :
    parse n (Line.code m os).render =
      .ok ⟨n, (Line.code m os).render, [],
        some ⟨toLower (text m.name), os.flatMap Operand.words⟩⟩ := by
  obtain ⟨hm, hpoint⟩ := token_mnemonic m
  have hhead : ∀ {rest : Text} (c : UInt8), (text m.name ++ rest).head? = some c →
      blankByte c = false ∧ c ≠ 46 := by
    intro rest c hc
    obtain ⟨d, name, hname⟩ := List.exists_cons_of_ne_nil hm.ne_nil
    rw [hname] at hpoint hc
    obtain rfl : d = c := by simpa using hc
    exact ⟨plainByte_notBlank (hm.plain d (by rw [hname]; exact List.mem_cons_self)), hpoint d rfl⟩
  cases os with
  | nil =>
      have hrender : (Line.code m []).render = 9 :: (text m.name ++ []) := rfl
      rw [hrender]
      refine parse_body n (by simpa using hm.ne_nil) (by simpa using hm.lineByte) hhead
        (by simpa using hm.notBlank_last) ?_
      rw [List.append_nil, hm.blankSeparators, Text.fields_word hm.isWord]
      rfl
  | cons o os =>
      obtain ⟨hne, hbytes, hlast, hfields⟩ := listed_written o os h
      have hrender : (Line.code m (o :: os)).render =
          9 :: (text m.name ++ (32 :: listed (o :: os))) := rfl
      have hascii : Ascii (blankSeparators (listed (o :: os))) :=
        ascii_blankSeparators (ascii_of_lineByte hbytes)
      rw [hrender]
      refine parse_body n (by simp) (lineByte_append hm.lineByte ?_) hhead ?_ ?_
      · intro c hc
        rcases List.mem_cons.1 hc with rfl | hc
        · decide
        · exact hbytes c hc
      · rw [← List.singleton_append, ← List.append_assoc, List.getLast?_append_of_ne_nil _ hne]
        exact hlast
      · rw [blankSeparators_append, hm.blankSeparators, ← List.singleton_append,
          blankSeparators_append, ← hfields]
        exact fields_word_blank hm.isWord (by decide) (by decide) hascii

theorem Token.trim (h : Token t) : Text.trim t = t := by
  have htrim := trim_between (a := []) (t := t) (b := []) h.ascii (by simp) (by simp) ?_
    h.notBlank_last
  · rwa [List.nil_append, List.append_nil] at htrim
  · intro d hd
    exact plainByte_notBlank (h.plain d (List.mem_of_head? hd))

/-- What stands before a colon is cut off whole. -/
theorem Token.cut_colon (h : Token t) : cut 58 (t ++ [58]) = (t, some []) :=
  Text.cut_append (fun d hd => (plainByte_iff.1 (h.plain d hd)).2.2.2.2.2) []

theorem Token.holdsSeparator (h : Token t) : Statement.holdsSeparator t = false := by
  rw [Statement.holdsSeparator, List.any_eq_false]
  intro d hd
  have hblank := plainByte_notBlank (h.plain d hd)
  obtain ⟨-, -, -, -, h44, -⟩ := plainByte_iff.1 (h.plain d hd)
  simp only [Bool.or_eq_true, beq_iff_eq, not_or]
  refine ⟨⟨?_, ?_⟩, h44⟩ <;> rintro rfl <;> exact absurd hblank (by decide)

/-- A line that defines a label, with blanks and a comment behind it. -/
theorem parse_labelled {l : Label} (n : Nat) (h : l.isMade) {source : Text} (behind : Text)
    (hsource : upTo 35 source = l.render ++ 58 :: behind) (hbehind : ∀ c ∈ behind, blankByte c) :
    parse n source = .ok ⟨n, source, [l.render], none⟩ := by
  have htoken := l.token h
  obtain ⟨c, t, hl, -, hpoint, -⟩ := l.render_eq_cons h
  have hsig : significant source = l.render ++ [58] := by
    rw [significant, hsource]
    have := trim_between (a := []) (t := l.render ++ [58]) (b := behind)
      (htoken.ascii.append (by decide)) (by simp) hbehind ?_ ?_
    · rwa [List.nil_append, List.append_assoc, List.singleton_append] at this
    · intro d hd
      rw [hl] at hd
      obtain rfl : c = d := by simpa using hd
      exact plainByte_notBlank (htoken.plain c (by rw [hl]; exact List.mem_cons_self))
    · intro d hd
      obtain rfl : 58 = d := by simpa using hd
      decide
  have htake : takeLabels (l.render ++ [58]).length (l.render ++ [58]) [] =
      .ok ([l.render], []) := by
    have hne : (l.render ++ [58]).isEmpty = false := by simp
    have hdir : isDirective (l.render ++ [58]) = false := by
      rw [hl]
      simpa [isDirective] using hpoint
    have hid := l.isIdentifier_render h
    have htrim := htoken.trim
    have hsep := htoken.holdsSeparator
    rw [List.length_append, List.length_singleton, takeLabels]
    simp only [hne, hdir, Bool.or_self, Bool.false_eq_true, if_false, htoken.cut_colon]
    rw [hl] at htrim hsep hid ⊢
    simp only [htrim, hsep, hid, Bool.false_eq_true, if_false, if_true]
    rfl
  rw [parse, hsig, htake]
  rfl

/-- **The statement of a line that defines a label.** -/
theorem parse_label (n : Nat) (h : l.isMade) :
    parse n (Line.label l).render = .ok ⟨n, (Line.label l).render, [l.render], none⟩ := by
  refine parse_labelled n h [] ?_ (by simp)
  rw [Line.render, upTo_of_lineByte (l.token h).lineByte]
  rfl

/-- The statement of the line that an instruction starts with. -/
theorem parse_place (n offset : Nat) (ins : Instruction) :
    parse n (Line.place offset ins).render =
      .ok ⟨n, (Line.place offset ins).render, [(Label.start offset).render], none⟩ := by
  refine parse_labelled n rfl [9, 9] ?_ (List.all_eq_true.1 (by decide))
  rw [Line.render, List.append_assoc,
    upTo_of_lineByte (Label.token (l := .start offset) rfl).lineByte]
  rfl

end StackCompiler.Listing

/-! ### Registers and numbers -/

namespace StackCompiler.Assembly.Operand

open Numeral (signed hex)

/-- **A register is read as what it is.** -/
theorem register_name {r : Register} (h : r < 32) : register r.name = .ok r := by
  have hall : ∀ n < 32, register (Register.name n.toUInt8) = .ok n.toUInt8 := by decide +kernel
  have := hall r.toNat (UInt8.lt_iff_toNat_lt.1 h)
  rwa [Nat.toUInt8_eq, UInt8.ofNat_toNat] at this

/-- What starts with no quotation mark is read as a number. -/
theorem immediate_cons {c : UInt8} {t : Text} (h : c ≠ 39) {n : Int}
    (hread : Numeral.readSigned .none 64 (c :: t) = .ok n) : immediate (c :: t) = .ok n := by
  unfold immediate
  split
  · next heq => exact absurd (List.cons.inj heq).1 h
  · rw [hread]

/-- **A number is read as what it is**, if it fits in 64 bits. -/
theorem immediate_signed {n : Int} (hlo : -2 ^ 63 ≤ n) (hhi : n < 2 ^ 63) :
    immediate (signed n) = .ok n := by
  have hread := Numeral.readSigned_signed hlo hhi
  cases n with
  | ofNat n =>
      obtain ⟨d, rest, h, hd, -⟩ := Numeral.write_eq_cons 10 (by decide) n
      have hquote : ∀ d < 10, Numeral.digit d ≠ 39 := by decide
      rw [signed, Numeral.decimal, h] at hread ⊢
      exact immediate_cons (hquote d hd) hread
  | negSucc n => exact immediate_cons (by decide) hread

/-- An address is read as what it is. -/
theorem immediate_hex {n : Nat} (h : n < 2 ^ 63) : immediate (text "0x" ++ hex n) = .ok n :=
  immediate_cons (by decide) (Numeral.readSigned_hex h)

theorem isIdentifier_hex (n : Nat) : Text.isIdentifier (text "0x" ++ hex n) = false := by
  have h := Text.isIdentifier_cons (c := 48) (t := 120 :: hex n) (Listing.token_hex n).ascii
  rw [show text "0x" ++ hex n = 48 :: 120 :: hex n from rfl, h]
  rfl

end StackCompiler.Assembly.Operand
