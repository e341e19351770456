/-
**Names that a program brings along.**

The names of visible symbols are texts of any bytes.  Lowering writes a name into a line only if it
is an identifier, which may hold letters of all scripts.  This module follows such a name through
the assembler: characters are taken out of a text and put back without loss, a byte below 128 is
always a character of its own, and so an identifier holds nothing that would take a line apart.

* `Text.ofPieces_pieces` — **the pieces of a text make up the text**.
-/

import StackCompiler.Proofs.ListingText

namespace StackCompiler.Text

/-! ### Characters -/

theorem forall_byte {P : UInt8 → Prop} (h : ∀ n < 256, P n.toUInt8) (b : UInt8) : P b := by
  have := h b.toNat b.toNat_lt
  rwa [Nat.toUInt8_eq, UInt8.ofNat_toNat] at this

variable {b c : UInt8} {t : Text}

theorem continuation?_eq_some {n : Nat} (h : continuation? b = some n) :
    b.toNat = n + 128 ∧ n < 64 := by
  have hbyte : b &&& 0xC0 = 0x80 → b.toNat = (b &&& 0x3F).toNat + 128 ∧ (b &&& 0x3F).toNat < 64 :=
    forall_byte (P := fun b => b &&& 0xC0 = 0x80 →
      b.toNat = (b &&& 0x3F).toNat + 128 ∧ (b &&& 0x3F).toNat < 64) (by decide +kernel) b
  unfold continuation? at h
  split at h
  · next hcont =>
    obtain rfl := Option.some.inj h
    exact hbyte hcont
  · cases h

theorem continuation?_ascii (h : c < 0x80) : continuation? c = none :=
  forall_lt_128 (P := fun c => continuation? c = none) (by decide) h

theorem scalar?_eq_some {least n : Nat} {c : Char} (h : scalar? least n = some c) :
    least ≤ n ∧ c.val.toNat = n := by
  by_cases hn : least ≤ n ∧ n.isValidChar
  · rw [scalar?, dif_pos hn] at h
    rw [← Option.some.inj h]
    exact ⟨hn.1, rfl⟩
  · rw [scalar?, dif_neg hn] at h
    cases h

/-- The number of payload bits that the first byte of a character holds. -/
theorem lead_toNat (b : UInt8) :
    (192 ≤ b.toNat → b.toNat < 224 → b.toNat = (b &&& 0x1F).toNat + 192) ∧
      (224 ≤ b.toNat → b.toNat < 240 → b.toNat = (b &&& 0x0F).toNat + 224) ∧
      (240 ≤ b.toNat → b.toNat < 248 → b.toNat = (b &&& 0x07).toNat + 240) :=
  forall_byte (P := fun b =>
    (192 ≤ b.toNat → b.toNat < 224 → b.toNat = (b &&& 0x1F).toNat + 192) ∧
      (224 ≤ b.toNat → b.toNat < 240 → b.toNat = (b &&& 0x0F).toNat + 224) ∧
      (240 ≤ b.toNat → b.toNat < 248 → b.toNat = (b &&& 0x07).toNat + 240)) (by decide +kernel) b

theorem ofNat_eq_byte {n : Nat} (h : b.toNat = n) : UInt8.ofNat n = b := by
  rw [← h, UInt8.ofNat_toNat]

variable {rest : Text}

/-- **A character was read from its own bytes.** -/
theorem headChar?_eq_some {c : Char} (h : headChar? t = some (c, rest)) :
    t = String.utf8EncodeChar c ++ rest := by
  unfold headChar? at h
  split at h
  · cases h
  next b tail =>
  obtain ⟨hlead2, hlead3, hlead4⟩ := lead_toNat b
  split at h
  · -- one byte
    next hlt =>
    obtain ⟨rfl, rfl⟩ := Prod.mk.inj (Option.some.inj h)
    exact congrArg (· ++ tail) (bytes_letter hlt).symm
  split at h
  · cases h
  next h128 h192 =>
  rw [UInt8.lt_iff_toNat_lt] at h128 h192
  have h192 : 192 ≤ b.toNat := Nat.le_of_not_lt h192
  split at h
  · -- two bytes
    next h224 =>
    rw [UInt8.lt_iff_toNat_lt] at h224
    have h224 : b.toNat < 224 := h224
    split at h
    · next b₁ tail =>
      simp only [Option.bind_eq_bind, Option.bind_eq_some_iff, Option.pure_def, Option.some.injEq,
        Prod.mk.injEq] at h
      obtain ⟨n₁, hn₁, c', hc', rfl, rfl⟩ := h
      obtain ⟨hb₁, hlt₁⟩ := continuation?_eq_some hn₁
      obtain ⟨hleast, hval⟩ := scalar?_eq_some hc'
      have hlead := hlead2 h192 h224
      rw [String.utf8EncodeChar, hval, if_neg (by omega), if_pos (by omega)]
      rw [ofNat_eq_byte (b := b) (by omega), ofNat_eq_byte (b := b₁) (by omega)]
      rfl
    · cases h
  next h224 =>
  have h224 : 224 ≤ b.toNat := Nat.le_of_not_lt (UInt8.lt_iff_toNat_lt.not.1 h224)
  split at h
  · -- three bytes
    next h240 =>
    have h240 : b.toNat < 240 := UInt8.lt_iff_toNat_lt.1 h240
    split at h
    · next b₁ b₂ tail =>
      simp only [Option.bind_eq_bind, Option.bind_eq_some_iff, Option.pure_def, Option.some.injEq,
        Prod.mk.injEq] at h
      obtain ⟨n₁, hn₁, n₂, hn₂, c', hc', rfl, rfl⟩ := h
      obtain ⟨hb₁, hlt₁⟩ := continuation?_eq_some hn₁
      obtain ⟨hb₂, hlt₂⟩ := continuation?_eq_some hn₂
      obtain ⟨hleast, hval⟩ := scalar?_eq_some hc'
      have hlead := hlead3 h224 h240
      rw [String.utf8EncodeChar, hval, if_neg (by omega), if_neg (by omega), if_pos (by omega)]
      rw [ofNat_eq_byte (b := b) (by omega), ofNat_eq_byte (b := b₁) (by omega),
        ofNat_eq_byte (b := b₂) (by omega)]
      rfl
    · cases h
  next h240 =>
  have h240 : 240 ≤ b.toNat := Nat.le_of_not_lt (UInt8.lt_iff_toNat_lt.not.1 h240)
  split at h
  · -- four bytes
    next h248 =>
    have h248 : b.toNat < 248 := UInt8.lt_iff_toNat_lt.1 h248
    split at h
    · next b₁ b₂ b₃ tail =>
      simp only [Option.bind_eq_bind, Option.bind_eq_some_iff, Option.pure_def, Option.some.injEq,
        Prod.mk.injEq] at h
      obtain ⟨n₁, hn₁, n₂, hn₂, n₃, hn₃, c', hc', rfl, rfl⟩ := h
      obtain ⟨hb₁, hlt₁⟩ := continuation?_eq_some hn₁
      obtain ⟨hb₂, hlt₂⟩ := continuation?_eq_some hn₂
      obtain ⟨hb₃, hlt₃⟩ := continuation?_eq_some hn₃
      obtain ⟨hleast, hval⟩ := scalar?_eq_some hc'
      have hlead := hlead4 h240 h248
      rw [String.utf8EncodeChar, hval, if_neg (by omega), if_neg (by omega), if_neg (by omega)]
      rw [ofNat_eq_byte (b := b) (by omega), ofNat_eq_byte (b := b₁) (by omega),
        ofNat_eq_byte (b := b₂) (by omega), ofNat_eq_byte (b := b₃) (by omega)]
      rfl
    · cases h
  · cases h

/-- A character ends before a byte below 128. -/
theorem headChar?_append (h : c < 0x80) (t u : Text) :
    headChar? (b :: t ++ c :: u) = (headChar? (b :: t)).map fun x => (x.1, x.2 ++ c :: u) := by
  have hcont := continuation?_ascii h
  unfold headChar?
  simp only [List.cons_append]
  split
  · rfl
  split
  · rfl
  split
  · rcases t with _ | ⟨b₁, t⟩
    · simp [hcont]
    · simp only [List.cons_append, Option.bind_eq_bind, Option.map_bind, Function.comp_def,
        Option.pure_def, Option.map_some]
  split
  · rcases t with _ | ⟨b₁, _ | ⟨b₂, t⟩⟩
    · cases u <;> simp [hcont]
    · simp [hcont]
    · simp only [List.cons_append, Option.bind_eq_bind, Option.map_bind, Function.comp_def,
        Option.pure_def, Option.map_some]
  split
  · rcases t with _ | ⟨b₁, _ | ⟨b₂, _ | ⟨b₃, t⟩⟩⟩
    · rcases u with _ | ⟨_, _ | ⟨_, _⟩⟩ <;> simp [hcont]
    · cases u <;> simp [hcont]
    · simp [hcont]
    · simp only [List.cons_append, Option.bind_eq_bind, Option.map_bind, Function.comp_def,
        Option.pure_def, Option.map_some]
  · rfl

/-! ### Pieces -/

theorem length_of_headChar? {c : Char} (h : headChar? (b :: t) = some (c, rest)) :
    rest.length ≤ t.length := by
  have hlength := congrArg List.length (headChar?_eq_some h)
  have hpos : 0 < (String.utf8EncodeChar c).length := by
    rw [String.length_utf8EncodeChar]
    exact Char.utf8Size_pos c
  rw [List.length_append, List.length_cons] at hlength
  omega

/-- Fuel for all bytes is enough, and what was seen stands in front. -/
theorem piecesFrom_eq {n fuel : Nat} (hn : t.length ≤ n) (h : t.length ≤ fuel) (seen : List Piece) :
    piecesFrom fuel t seen = seen.reverse ++ piecesFrom t.length t [] := by
  induction n generalizing fuel t seen with
  | zero =>
      obtain rfl : t = [] := List.eq_nil_of_length_eq_zero (by omega)
      simp [piecesFrom]
  | succ n ih =>
      cases t with
      | nil => simp [piecesFrom]
      | cons b t =>
          obtain ⟨fuel, rfl⟩ : ∃ f, fuel = f + 1 := ⟨fuel - 1, by simp at h; omega⟩
          rw [List.length_cons] at hn h
          rw [List.length_cons, piecesFrom, piecesFrom]
          cases hhead : headChar? (b :: t) with
          | some x =>
              have hrest : x.2.length ≤ t.length := length_of_headChar? hhead
              simp only
              rw [ih (by omega) (by omega), ih (by omega) (by omega) [Piece.char x.1]]
              simp
          | none =>
              simp only
              rw [ih (by omega) (by omega), ih (by omega) (by omega) [Piece.stray b]]
              simp

theorem pieces_char {c : Char} (h : headChar? (b :: t) = some (c, rest)) :
    pieces (b :: t) = .char c :: pieces rest := by
  rw [pieces, List.length_cons, piecesFrom, h]
  exact piecesFrom_eq (Nat.le_refl _) (length_of_headChar? h) [.char c]

theorem pieces_stray (h : headChar? (b :: t) = none) : pieces (b :: t) = .stray b :: pieces t := by
  rw [pieces, List.length_cons, piecesFrom, h]
  exact piecesFrom_eq (Nat.le_refl _) (Nat.le_refl _) [.stray b]

/-- What holds of the empty text, and of a text if it holds behind its first piece, holds of every
text. -/
theorem pieces_induction {P : Text → Prop} (nil : P [])
    (char : ∀ b t c rest, headChar? (b :: t) = some (c, rest) → P rest → P (b :: t))
    (stray : ∀ b t, headChar? (b :: t) = none → P t → P (b :: t)) (t : Text) : P t := by
  have hbounded : ∀ n, ∀ t : Text, t.length ≤ n → P t := by
    intro n
    induction n with
    | zero =>
        intro t ht
        obtain rfl : t = [] := List.eq_nil_of_length_eq_zero (by omega)
        exact nil
    | succ n ih =>
        intro t ht
        cases t with
        | nil => exact nil
        | cons b t =>
            rw [List.length_cons] at ht
            cases hhead : headChar? (b :: t) with
            | some x =>
                have hrest : x.2.length ≤ t.length := length_of_headChar? hhead
                exact char b t x.1 x.2 hhead (ih _ (by omega))
            | none => exact stray b t hhead (ih _ (by omega))
  exact hbounded t.length t (Nat.le_refl _)

/-- **The pieces of a text make up the text.** -/
theorem ofPieces_pieces (t : Text) : ofPieces (pieces t) = t := by
  induction t using pieces_induction with
  | nil => rfl
  | char b t c rest hhead ih =>
      rw [pieces_char hhead, ofPieces, List.flatMap_cons, ← ofPieces, ih, headChar?_eq_some hhead]
      rfl
  | stray b t hhead ih =>
      rw [pieces_stray hhead, ofPieces, List.flatMap_cons, ← ofPieces, ih]
      rfl

theorem pieces_letter (h : c < 0x80) (t : Text) : pieces (c :: t) = letter c :: pieces t := by
  refine pieces_char (c := Char.ofNat c.toNat) ?_
  simp only [headChar?, h, if_true]

/-- **A byte below 128 separates the pieces before it and behind it.** -/
theorem pieces_append (h : c < 0x80) (t u : Text) :
    pieces (t ++ c :: u) = pieces t ++ letter c :: pieces u := by
  induction t using pieces_induction with
  | nil => exact pieces_letter h u
  | char b t ch rest hhead ih =>
      have happend := headChar?_append (b := b) h t u
      rw [hhead] at happend
      rw [List.cons_append] at happend ⊢
      rw [pieces_char happend, ih, pieces_char hhead]
      rfl
  | stray b t hhead ih =>
      have happend := headChar?_append (b := b) h t u
      rw [hhead] at happend
      rw [List.cons_append] at happend ⊢
      rw [pieces_stray happend, ih, pieces_stray hhead]
      rfl

theorem mem_pieces (h : c < 0x80) (hc : c ∈ t) : letter c ∈ pieces t := by
  obtain ⟨s, u, rfl⟩ := List.append_of_mem hc
  rw [pieces_append h]
  exact List.mem_append_right _ List.mem_cons_self

/-! ### Blanks and identifiers -/

theorem trim_eq_self (hhead : ∀ p, (pieces t).head? = some p → isBlank p = false)
    (hlast : ∀ p, (pieces t).getLast? = some p → isBlank p = false) : trim t = t := by
  have hdrop : ∀ ps : List Piece, (∀ p, ps.head? = some p → isBlank p = false) →
      ps.dropWhile isBlank = ps := by
    intro ps hps
    cases ps with
    | nil => rfl
    | cons p ps => rw [List.dropWhile_cons, hps p rfl]; rfl
  rw [trim, hdrop _ hhead, hdrop _ (by simpa using hlast), List.reverse_reverse, ofPieces_pieces]

/-- Blanks in front go away, and a text behind them keeps its first byte. -/
theorem head?_trim_blank (hb : b < 0x80) (hblank : blankByte b) (hc : c < 0x80)
    (hc' : blankByte c = false) (t : Text) : (trim (b :: c :: t)).head? = some c := by
  have hfront : (pieces (b :: c :: t)).dropWhile isBlank = letter c :: pieces t := by
    rw [pieces_letter hb, pieces_letter hc, List.dropWhile_cons, isBlank_letter hb, hblank,
      if_pos rfl, List.dropWhile_cons, isBlank_letter hc, hc']
    rfl
  have hback : ∃ ps, (letter c :: pieces t).reverse.dropWhile isBlank = ps ++ [letter c] := by
    rw [List.reverse_cons, List.dropWhile_append]
    split
    · refine ⟨[], ?_⟩
      rw [List.dropWhile_cons, isBlank_letter hc, hc']
      rfl
    · exact ⟨_, rfl⟩
  obtain ⟨ps, hps⟩ := hback
  rw [trim, hfront, hps, List.reverse_append, ofPieces, List.reverse_singleton,
    List.singleton_append, List.flatMap_cons, bytes_letter hc]
  rfl

theorem inRanges_bounds {rs : List (Nat × Nat)} {n : Nat} (h : inRanges rs n) :
    ∃ r ∈ rs, r.1 ≤ n ∧ n ≤ r.2 := by
  induction rs with
  | nil => cases h
  | cons r rs ih =>
      obtain ⟨lo, hi⟩ := r
      rw [inRanges] at h
      split at h
      · cases h
      · next hlo =>
        rw [Bool.or_eq_true, decide_eq_true_eq] at h
        rcases h with h | h
        · exact ⟨(lo, hi), List.mem_cons_self, by simpa using hlo, h⟩
        · obtain ⟨r, hr, hbounds⟩ := ih h
          exact ⟨r, List.mem_cons_of_mem _ hr, hbounds⟩

/-- The pieces of identifiers. -/
def inIdentifier (p : Piece) : Bool := startsIdentifier p || isDigit p

/-- **A piece of an identifier is no blank**: there are few blanks, and none of them may stand in an
identifier. -/
theorem notBlank_of_identifier {p : Piece} (h : inIdentifier p) : isBlank p = false := by
  have hall : ∀ r ∈ blankRanges, ∀ k < r.2 + 1 - r.1, (r.1 + k == 0x5F || r.1 + k == 0x2E ||
      inRuns letterRuns (r.1 + k) || inRuns digitRuns (r.1 + k)) = false := by
    decide +kernel
  rw [Bool.eq_false_iff]
  intro hblank
  obtain ⟨r, hr, hlo, hhi⟩ := inRanges_bounds hblank
  have hnone := hall r hr (p.code - r.1) (by omega)
  rw [Nat.add_sub_cancel' hlo] at hnone
  rw [inIdentifier, startsIdentifier, isLetter, isDigit, hnone] at h
  cases h

theorem pieces_of_identifier (h : isIdentifier t) :
    ∃ p ps, pieces t = p :: ps ∧ startsIdentifier p ∧ ∀ q ∈ p :: ps, inIdentifier q := by
  unfold isIdentifier at h
  split at h
  · cases h
  · next p ps hpieces =>
    rw [Bool.and_eq_true, List.all_eq_true] at h
    refine ⟨p, ps, hpieces, h.1, ?_⟩
    intro q hq
    rcases List.mem_cons.1 hq with rfl | hq
    · rw [inIdentifier, h.1, Bool.true_or]
    · exact h.2 q hq

/-- The bytes below 128 of an identifier are letters, digits, underscores and points. -/
theorem byte_of_identifier (h : isIdentifier t) (hc : c ∈ t) (hlt : c < 0x80) :
    startsName c || (48 ≤ c && c ≤ 57) := by
  obtain ⟨p, ps, hpieces, -, hall⟩ := pieces_of_identifier h
  have hmem := mem_pieces hlt hc
  rw [hpieces] at hmem
  have hin := hall _ hmem
  rwa [inIdentifier, startsIdentifier_letter hlt, isDigit_letter hlt] at hin

/-- A byte below 128 that is none of these stands in no identifier. -/
theorem not_mem_identifier (h : isIdentifier t) (hlt : c < 0x80)
    (hc : (startsName c || (48 ≤ c && c ≤ 57)) = false) : ∀ d ∈ t, d ≠ c := by
  rintro d hd rfl
  rw [byte_of_identifier h hd hlt] at hc
  cases hc

theorem trim_identifier (h : isIdentifier t) : trim t = t := by
  obtain ⟨p, ps, hpieces, -, hall⟩ := pieces_of_identifier h
  refine trim_eq_self ?_ ?_
  · intro q hq
    rw [hpieces] at hq
    exact notBlank_of_identifier (hall q (List.mem_of_head? hq))
  · intro q hq
    rw [hpieces] at hq
    exact notBlank_of_identifier (hall q (List.mem_of_getLast? hq))

theorem trim_identifier_colon (h : isIdentifier t) : trim (t ++ [58]) = t ++ [58] := by
  obtain ⟨p, ps, hpieces, -, hall⟩ := pieces_of_identifier h
  have hcolon : pieces (t ++ [58]) = p :: ps ++ [letter 58] := by
    rw [pieces_append (by decide), hpieces]
    rfl
  refine trim_eq_self ?_ ?_
  · intro q hq
    rw [hcolon, List.cons_append, List.head?_cons] at hq
    obtain rfl := Option.some.inj hq
    exact notBlank_of_identifier (hall p List.mem_cons_self)
  · intro q hq
    rw [hcolon, List.getLast?_concat] at hq
    obtain rfl := Option.some.inj hq
    decide

theorem holdsSeparator_identifier (h : isIdentifier t) :
    Assembly.Statement.holdsSeparator t = false := by
  rw [Assembly.Statement.holdsSeparator, List.any_eq_false]
  intro d hd
  have h32 := not_mem_identifier h (c := 32) (by decide) (by decide) d hd
  have h9 := not_mem_identifier h (c := 9) (by decide) (by decide) d hd
  have h44 := not_mem_identifier h (c := 44) (by decide) (by decide) d hd
  simp [h32, h9, h44]

end StackCompiler.Text

namespace StackCompiler.Listing

open Assembly.Statement (isDirective parse significant takeLabels)

/-! ### Statements -/

/-- A line that is blank before its comment says nothing. -/
theorem parse_comment (n : Nat) (body : Text) :
    parse n (Line.comment body).render = .ok ⟨n, (Line.comment body).render, [], none⟩ := by
  have hsig : significant (Line.comment body).render = [] := by
    have hup : Text.upTo 35 (Line.comment body).render = [9] := rfl
    rw [significant, hup]
    decide
  rw [parse, hsig]
  rfl

/-- What starts with a point defines nothing, whatever follows. -/
theorem parse_significant_point (n : Nat) {source : Text}
    (h : (significant source).head? = some 46) :
    parse n source = .ok ⟨n, source, [], none⟩ := by
  obtain ⟨t, ht⟩ := List.head?_eq_some_iff.1 h
  have hdirective : isDirective (46 :: t) = true := rfl
  rw [parse, ht, List.length_cons, takeLabels]
  simp [hdirective]

/-- **The statement of a directive line.** -/
theorem parse_visible (n : Nat) (l : Label) :
    parse n (Line.visible l).render = .ok ⟨n, (Line.visible l).render, [], none⟩ := by
  have hup : ∃ rest, Text.upTo 35 (Line.visible l).render = 9 :: 46 :: rest := ⟨_, rfl⟩
  obtain ⟨rest, hup⟩ := hup
  refine parse_significant_point n ?_
  rw [significant, hup]
  exact Text.head?_trim_blank (by decide) (by decide) (by decide) (by decide) rest

/-- The labels that a line with a name and a colon defines.  A name that starts with a point makes
the line a directive. -/
def namedLabels (name : Text) : List Text := if name.head? = some 46 then [] else [name]

/-- **The statement of a line with a name**, which may hold letters of all scripts. -/
theorem parse_named (n : Nat) {name : Text} (h : Text.isIdentifier name) :
    parse n (Line.label (.named name)).render =
      .ok ⟨n, (Line.label (.named name)).render, namedLabels name, none⟩ := by
  have hrender : (Line.label (.named name)).render = name ++ [58] := rfl
  have hsig : significant (name ++ [58]) = name ++ [58] := by
    have hhash := Text.not_mem_identifier h (c := 35) (by decide) (by decide)
    have hup : Text.upTo 35 (name ++ [58]) = name ++ [58] := by
      rw [Text.upTo, List.takeWhile_append_of_pos fun d hd => by simpa using hhash d hd]
      rfl
    rw [significant, hup, Text.trim_identifier_colon h]
  obtain ⟨c, t, rfl⟩ : ∃ c t, name = c :: t := by
    obtain ⟨p, ps, hpieces, -, -⟩ := Text.pieces_of_identifier h
    cases name with
    | nil => cases hpieces
    | cons c t => exact ⟨c, t, rfl⟩
  rw [hrender]
  by_cases hpoint : c = 46
  · subst hpoint
    exact parse_significant_point n (by rw [hsig]; rfl)
  · have hcolon := Text.not_mem_identifier h (c := 58) (by decide) (by decide)
    have hcut := Text.cut_append hcolon []
    have hsep := Text.holdsSeparator_identifier h
    have hdir : isDirective (c :: t ++ [58]) = false := by
      simpa [isDirective] using hpoint
    have htake : takeLabels (c :: t ++ [58]).length (c :: t ++ [58]) [] = .ok ([c :: t], []) := by
      have hne : (c :: t ++ [58]).isEmpty = false := rfl
      rw [List.length_append, List.length_singleton, takeLabels]
      simp only [hne, hdir, Bool.or_self, Bool.false_eq_true, if_false, hcut]
      simp only [Text.trim_identifier h, hsep, h, Bool.false_eq_true, if_false, if_true]
      rfl
    have hlabels : namedLabels (c :: t) = [c :: t] := by
      rw [namedLabels, if_neg]
      simpa using hpoint
    rw [parse, hsig, htake, hlabels]
    rfl

end StackCompiler.Listing
