/-
**Hex forms are read back.**

Bytes and words are stored as lines of hexadecimal digits.  What is written there is read back: two
digits make a byte again and eight make a word, wherever the lines break.  The text form of bytes is
moreover taken for what it is, so a file that holds it stands for the same container as the bytes.
In a file of words, remarks may be added to what was written, on its lines and between them.

* `Container.decode_write` — **hex text stands for its bytes**;
* `WordFile.ofHex_annotated` — **a file of words is read back, with any remarks in it**.
-/

import Mathlib.Data.List.Forall2
import StackCompiler.Assembly.WordFile
import StackCompiler.Proofs.HexRecognition
import StackCompiler.Proofs.ProgramNames

namespace StackCompiler

open Text (join newline padLeft splitOn)

/-! ### Lines -/

theorem mapM_zipIdx_ok {ε α β : Type} {f : α × Nat → Except ε β} {xs : List α} {bs : List β}
    (h : List.Forall₂ (fun x b => ∀ n, f (x, n) = .ok b) xs bs) (n : Nat) :
    (xs.zipIdx n).mapM f = .ok bs := by
  induction h generalizing n with
  | nil => rfl
  | cons hx _ ih => exact mapM_cons_ok_iff.2 ⟨_, _, hx n, ih (n + 1), rfl⟩

namespace Lines

theorem splitOn_unlines {ls : List Text} (h : ∀ l ∈ ls, newline ∉ l) :
    splitOn newline (Text.unlines ls) = ls ++ [[]] := by
  have hsplit := Text.splitOn_unlines ls []
  rw [List.append_nil] at hsplit
  rw [hsplit, List.flatMap_congr fun l hl => Text.splitOn_of_not_mem (h l hl)]
  simp [splitOn]

theorem scan_eq {bound : Nat} {t : Text} (h : ∀ l ∈ split t, l.length < bound) :
    scan bound t = ⟨(split t).map dropReturn, false⟩ := by
  have htake : (split t).takeWhile (·.length < bound) = split t :=
    List.takeWhile_eq_self_iff.2 (by simpa using h)
  have hany : (split t).any (bound ≤ ·.length) = false := by simpa using h
  rw [scan, htake, hany]

end Lines

/-! ### Bytes -/

namespace HexText

theorem rowsFrom_flatten {fuel : Nat} {bytes : List UInt8} (h : bytes.length ≤ fuel)
    (seen : List (List UInt8)) :
    ∃ rows, rowsFrom fuel bytes seen = seen.reverse ++ rows ∧ rows.flatten = bytes ∧
      ∀ row ∈ rows, row.length ≤ 16 := by
  induction fuel generalizing bytes seen with
  | zero =>
      obtain rfl := List.eq_nil_of_length_eq_zero (Nat.le_zero.1 h)
      exact ⟨[], by simp [rowsFrom]⟩
  | succ fuel ih =>
      cases bytes with
      | nil => exact ⟨[], by simp [rowsFrom]⟩
      | cons b bytes =>
          have hdrop : ((b :: bytes).drop 16).length ≤ fuel := by
            rw [List.length_drop]
            omega
          obtain ⟨rows, hrows, hflat, hlength⟩ := ih hdrop ((b :: bytes).take 16 :: seen)
          refine ⟨(b :: bytes).take 16 :: rows, ?_, ?_, ?_⟩
          · rw [rowsFrom, hrows, List.reverse_cons, List.append_assoc, List.singleton_append]
          · rw [List.flatten_cons, hflat, List.take_append_drop]
          · exact List.forall_mem_cons.2 ⟨List.length_take_le _ _, hlength⟩

/-- The digits of a byte. -/
def halves (b : UInt8) : List UInt8 := [b >>> 4, b &&& 15]

theorem pairs_halves (bytes seen : List UInt8) :
    pairs (bytes.flatMap halves) seen = some (seen.reverse ++ bytes) := by
  have hjoin : ∀ b : UInt8, (b >>> 4) <<< 4 ||| (b &&& 15) = b :=
    Text.forall_byte (by decide +kernel)
  induction bytes generalizing seen with
  | nil => simp [pairs]
  | cons b bytes ih =>
      rw [List.flatMap_cons, halves, List.cons_append, List.cons_append, List.nil_append, pairs,
        hjoin, ih, List.reverse_cons, List.append_assoc, List.singleton_append]

/-- What may stand on a line that was written: digits and blanks, and nothing that ends the line or
starts a comment. -/
def isWritten (c : UInt8) : Bool := mayStand c && c != 47 && c != newline && c != 13

theorem writeByte_spec : ∀ b : UInt8, (writeByte b).filterMap value? = halves b ∧
    (writeByte b).length = 2 ∧ (writeByte b).all isWritten = true :=
  Text.forall_byte (by decide +kernel)

/-- The line of a row. -/
def rowLine (row : List UInt8) : Text := join [32] (row.map writeByte)

theorem rowLine_cons (b c : UInt8) (row : List UInt8) :
    rowLine (b :: c :: row) = writeByte b ++ 32 :: rowLine (c :: row) := by
  simp [rowLine, join, List.intercalate]

/-- **The line of a row** holds the digits of its bytes. -/
theorem rowLine_spec (row : List UInt8) :
    (rowLine row).filterMap value? = row.flatMap halves ∧
      (rowLine row).length ≤ 3 * row.length ∧ (rowLine row).all isWritten = true := by
  induction row with
  | nil => simp [rowLine, join]
  | cons b row ih =>
      obtain ⟨hdigits, hlength, hall⟩ := writeByte_spec b
      cases row with
      | nil => simp [rowLine, join, hdigits, hlength, hall]
      | cons c row =>
          obtain ⟨hdigits', hlength', hall'⟩ := ih
          rw [rowLine_cons]
          refine ⟨?_, ?_, ?_⟩
          · rw [List.filterMap_append, hdigits, List.filterMap_cons, hdigits']
            rfl
          · simp only [List.length_append, hlength, List.length_cons] at hlength' ⊢
            omega
          · rw [List.all_append, List.all_cons, hall, hall']
            rfl

theorem not_mem_rowLine (row : List UInt8) {c : UInt8} (hc : isWritten c = false) :
    c ∉ rowLine row := by
  intro hmem
  rw [List.all_eq_true.1 (rowLine_spec row).2.2 c hmem] at hc
  cases hc

theorem readLine_rowLine (row : List UInt8) (n : Nat) :
    readLine n (Lines.dropReturn (rowLine row)) = .ok row := by
  have hreturn : (rowLine row).getLast? ≠ some 13 :=
    fun hlast => not_mem_rowLine row (by decide) (List.mem_of_getLast? hlast)
  have hbefore : Text.before commentMark (rowLine row) = rowLine row := by
    obtain ⟨rest, hline, rfl | hmark⟩ := Text.before_append commentMark (rowLine row)
    · rw [List.append_nil] at hline
      exact hline.symm
    · refine absurd ?_ (not_mem_rowLine row (c := 47) (by decide))
      rw [hline]
      exact List.mem_append_right _ (hmark.subset List.mem_cons_self)
  rw [readLine, Lines.dropReturn, if_neg hreturn, hbefore, (rowLine_spec row).1, pairs_halves]
  rfl

/-- The lines of hex text are those of the rows, and nothing follows the last newline. -/
theorem splitOn_write (bytes : List UInt8) :
    ∃ rows : List (List UInt8), rows.flatten = bytes ∧ (∀ row ∈ rows, row.length ≤ 16) ∧
      splitOn newline (write bytes) = rows.map rowLine ++ [[]] := by
  obtain ⟨rows, hrows, hflat, hlength⟩ := rowsFrom_flatten (Nat.le_refl bytes.length) []
  refine ⟨rows, hflat, hlength, ?_⟩
  rw [write, HexText.rows, hrows]
  refine Lines.splitOn_unlines fun l hl => ?_
  obtain ⟨row, -, rfl⟩ := List.mem_map.1 hl
  exact not_mem_rowLine row (by decide)

end HexText

/-- **Hex text stands for its bytes**: it is taken for what it is, it is read back, and so it stands
for the same container, or fails in the same way. -/
theorem Container.decode_write (bytes : List UInt8) :
    HexText.looksLike (HexText.write bytes) = true ∧
      HexText.read (HexText.write bytes) = .ok bytes ∧
      Container.decode (HexText.write bytes) = Container.parse bytes := by
  obtain ⟨rows, hflat, hlength, hlines⟩ := HexText.splitOn_write bytes
  have hlooks : HexText.looksLike (HexText.write bytes) = true := by
    refine HexText.looksLike_iff.2 fun line hline => ⟨line, [], by simp, ?_, .inl rfl⟩
    rw [hlines] at hline
    rcases List.mem_append.1 hline with hline | hline
    · obtain ⟨row, -, rfl⟩ := List.mem_map.1 hline
      intro c hc
      by_contra hstand
      exact HexText.not_mem_rowLine row (by simp [HexText.isWritten, hstand]) hc
    · simp [List.mem_singleton.1 hline]
  have hread : HexText.read (HexText.write bytes) = .ok bytes := by
    have hsplit : Lines.split (HexText.write bytes) = rows.map HexText.rowLine := by
      simp [Lines.split, hlines]
    have hshort : ∀ l ∈ Lines.split (HexText.write bytes), l.length < HexText.bound := by
      rw [hsplit]
      refine List.forall_mem_map.2 fun row hrow => ?_
      have := (HexText.rowLine_spec row).2.1
      have := hlength row hrow
      rw [HexText.bound]
      omega
    rw [HexText.read, Lines.scan_eq hshort, hsplit, List.map_map]
    refine bind_ok_iff.2 ⟨rows, mapM_zipIdx_ok ?_ 1, congrArg Except.ok hflat⟩
    exact List.forall₂_map_left_iff.2
      (List.forall₂_same.2 fun row _ => HexText.readLine_rowLine row)
  refine ⟨hlooks, hread, ?_⟩
  rw [decode, rawBytes, if_pos hlooks, hread]
  rfl

/-! ### Words -/

namespace Text

theorem pieces_ascii_append {s : Text} (h : Ascii s) (t : Text) :
    pieces (s ++ t) = pieces s ++ pieces t := by
  induction s with
  | nil => rfl
  | cons c s ih =>
      obtain ⟨hc, hs⟩ := ascii_cons.1 h
      rw [List.cons_append, pieces_letter hc, pieces_letter hc, ih hs, List.cons_append]

theorem trim_append_blanks {s t : Text} (hpieces : pieces (s ++ t) = pieces s ++ pieces t)
    (ht : ∀ p ∈ pieces t, isBlank p) : trim (s ++ t) = trim s := by
  have hback : (pieces t).reverse.dropWhile isBlank = [] :=
    List.dropWhile_eq_nil_iff.2 fun p hp => ht p (List.mem_reverse.1 hp)
  rw [trim, hpieces, trim, List.dropWhile_append]
  split
  · next hempty => rw [List.isEmpty_iff.1 hempty, List.dropWhile_eq_nil_iff.2 ht]
  · rw [List.reverse_append, List.dropWhile_append, hback, List.isEmpty_nil, if_pos rfl]

theorem trim_return (t : Text) : trim (t ++ [13]) = trim t := by
  have hpieces : pieces (t ++ [13]) = pieces t ++ pieces [13] := by
    rw [pieces_append (by decide)]
    rfl
  exact trim_append_blanks hpieces (by decide)

/-- A carriage return behind a line is a blank or part of its comment. -/
theorem trim_upTo_dropReturn (t : Text) :
    trim (upTo 35 (Lines.dropReturn t)) = trim (upTo 35 t) := by
  unfold Lines.dropReturn
  split
  · next hlast =>
    obtain ⟨s, rfl⟩ := List.getLast?_eq_some_iff.1 hlast
    rw [List.dropLast_concat, upTo, upTo, List.takeWhile_append]
    split
    · next hlength =>
      rw [(List.takeWhile_prefix _).eq_of_length hlength]
      exact (trim_return s).symm
    · rfl
  · rfl

end Text

namespace Numeral

theorem length_writeFrom {base k : Nat} {fuel n : Nat} (hn : n < base ^ (k + 1)) (written : Text) :
    (writeFrom base fuel n written).length ≤ k + 1 + written.length := by
  induction fuel generalizing k n written with
  | zero => simp [writeFrom]
  | succ fuel ih =>
      rw [writeFrom]
      split
      · rw [List.length_cons]
        omega
      · next hbase =>
        cases k with
        | zero => exact absurd (Nat.pow_one base ▸ hn) hbase
        | succ k =>
            have := ih (Nat.div_lt_of_lt_mul (by rwa [← Nat.pow_succ']))
              (digit (n % base) :: written)
            rw [List.length_cons] at this
            omega

theorem readDigits_zeros (most k : Nat) (t : Text) :
    readDigits 16 false most (List.replicate k 48 ++ t) 0 = readDigits 16 false most t 0 := by
  induction k with
  | zero => rfl
  | succ k ih =>
      exact (readDigits_digit (d := 0) (n := 0) false _ (by decide) (by decide) (by omega)).trans ih

end Numeral

namespace WordFile

open Listing (Token)

/-! #### The line of a word -/

/-- The line of a word. -/
def wordLine (w : UInt32) : Text := Numeral.hexPadded 8 w.toNat

theorem token_wordLine (w : UInt32) : Token (wordLine w) := by
  obtain ⟨d, rest, h, -, -⟩ := Numeral.write_eq_cons 16 (by decide) w.toNat
  refine ⟨by simp [wordLine, Numeral.hexPadded, padLeft, Numeral.hex, h], ?_⟩
  intro c hc
  rcases List.mem_append.1 hc with hc | hc
  · rw [List.eq_of_mem_replicate hc]
    decide
  · exact Listing.plain_write (by decide) c hc

theorem length_wordLine (w : UInt32) : (wordLine w).length = 8 := by
  have : (Numeral.writeFrom 16 (w.toNat + 1) w.toNat []).length ≤ 8 :=
    Numeral.length_writeFrom (k := 7) w.toNat_lt []
  simp only [wordLine, Numeral.hexPadded, padLeft, List.length_append, List.length_replicate,
    Numeral.hex, Numeral.write] at this ⊢
  omega

theorem readUnsigned_wordLine (w : UInt32) :
    Numeral.readUnsigned (some 16) 0xFFFFFFFF (wordLine w) = .ok w.toNat := by
  have hw : w.toNat ≤ 0xFFFFFFFF := Nat.le_of_lt_succ w.toNat_lt
  rw [Numeral.readUnsigned, if_neg (by simpa using (token_wordLine w).ne_nil)]
  exact (Numeral.readDigits_zeros _ _ _).trans (Numeral.readDigits_write 16 false (by decide) hw)

/-! #### Remarks -/

/-- Blanks, and perhaps a comment behind them. -/
def IsRemark (t : Text) : Prop :=
  ∃ blanks comment, t = blanks ++ comment ∧ (∀ p ∈ Text.pieces blanks, Text.isBlank p) ∧
    (comment = [] ∨ comment.head? = some 35)

/-- A remark is not part of what a line says. -/
theorem IsRemark.trim_upTo {r : Text} (hr : IsRemark r) {t : Text}
    (ht : ∀ c ∈ t, c < 0x80 ∧ c ≠ 35) :
    Text.trim (Text.upTo 35 (Lines.dropReturn (t ++ r))) = Text.trim t := by
  obtain ⟨blanks, comment, rfl, hblanks, hcomment⟩ := hr
  have hnone : Text.upTo 35 comment = [] := by
    rcases hcomment with rfl | hhead
    · rfl
    · obtain ⟨rest, rfl⟩ := List.head?_eq_some_iff.1 hhead
      rfl
  have hfront : ∀ c ∈ t ++ blanks, (c != 35) = true := by
    intro c hc
    rw [bne_iff_ne]
    rcases List.mem_append.1 hc with hc | hc
    · exact (ht c hc).2
    · rintro rfl
      exact absurd (hblanks _ (Text.mem_pieces (by decide) hc)) (by decide)
  have hup : Text.upTo 35 (t ++ (blanks ++ comment)) = t ++ blanks := by
    rw [← List.append_assoc, Text.upTo, List.takeWhile_append_of_pos hfront, ← Text.upTo, hnone,
      List.append_nil]
  rw [Text.trim_upTo_dropReturn, hup]
  exact Text.trim_append_blanks (Text.pieces_ascii_append (fun c hc => (ht c hc).1) _) hblanks

theorem wordOf_remark {r : Text} (hr : IsRemark r) (n : Nat) :
    wordOf n (Lines.dropReturn r) = .ok none := by
  have htrim := hr.trim_upTo (t := []) (by simp)
  rw [List.nil_append] at htrim
  rw [wordOf, htrim]
  rfl

theorem wordOf_word (w : UInt32) {r : Text} (hr : IsRemark r) (n : Nat) :
    wordOf n (Lines.dropReturn (wordLine w ++ r)) = .ok (some w) := by
  have htoken := token_wordLine w
  have htrim := hr.trim_upTo (t := wordLine w) fun c hc =>
    ⟨htoken.ascii c hc, (Listing.plainByte_iff.1 (htoken.plain c hc)).2.1⟩
  rw [wordOf, htrim, htoken.trim]
  simp [htoken.ne_nil, readUnsigned_wordLine]

/-- **Lines that hold words and remarks**: a remark stands behind a word or on a line of its own. -/
inductive Annotated : List UInt32 → List Text → Prop where
  | nil : Annotated [] []
  | word (w : UInt32) {remark : Text} {words : List UInt32} {lines : List Text}
      (hremark : IsRemark remark) (h : Annotated words lines) :
      Annotated (w :: words) ((wordLine w ++ remark) :: lines)
  | remark {remark : Text} {words : List UInt32} {lines : List Text}
      (hremark : IsRemark remark) (h : Annotated words lines) : Annotated words (remark :: lines)

variable {words : List UInt32} {lines : List Text}

/-- What stands behind the last newline may be left out if it is empty. -/
theorem Annotated.init (h : Annotated words (lines ++ [[]])) : Annotated words lines := by
  generalize hlines : lines ++ [[]] = all at h
  induction h generalizing lines with
  | nil => simp at hlines
  | word w hremark h ih =>
      cases lines with
      | nil =>
          have hempty := (List.append_eq_nil_iff.1 (List.cons.inj hlines).1.symm).1
          exact absurd hempty (token_wordLine w).ne_nil
      | cons l lines =>
          obtain ⟨rfl, hrest⟩ := List.cons.inj hlines
          exact .word w hremark (ih hrest)
  | remark hremark h ih =>
      cases lines with
      | nil =>
          obtain ⟨-, rfl⟩ := List.cons.inj hlines
          exact h
      | cons l lines =>
          obtain ⟨rfl, hrest⟩ := List.cons.inj hlines
          exact .remark hremark (ih hrest)

theorem Annotated.read (h : Annotated words lines) :
    ∃ os, List.Forall₂ (fun l o => ∀ n, wordOf n (Lines.dropReturn l) = .ok o) lines os ∧
      os.filterMap id = words := by
  induction h with
  | nil => exact ⟨[], .nil, rfl⟩
  | word w hremark _ ih =>
      obtain ⟨os, hos, hwords⟩ := ih
      exact ⟨some w :: os, .cons (wordOf_word w hremark) hos, congrArg (w :: ·) hwords⟩
  | remark hremark _ ih =>
      obtain ⟨os, hos, hwords⟩ := ih
      exact ⟨none :: os, .cons (wordOf_remark hremark) hos, hwords⟩

theorem isRemark_nil : IsRemark [] :=
  ⟨[], [], rfl, by simp [Text.pieces, Text.piecesFrom], .inl rfl⟩

theorem annotated_map (words : List UInt32) : Annotated words (words.map wordLine ++ [[]]) := by
  induction words with
  | nil => exact .remark isRemark_nil .nil
  | cons w words ih => simpa using ih.word w isRemark_nil

/-- **A file of words is read back, with any remarks in it.** -/
theorem ofHex_annotated (words : List UInt32) :
    ofHex (toHex words) = .ok words ∧
      ∀ t : Text, Annotated words (splitOn newline t) →
        (∀ line ∈ splitOn newline t, line.length < 65536) → ofHex t = .ok words := by
  have hall : ∀ t : Text, Annotated words (splitOn newline t) →
      (∀ line ∈ splitOn newline t, line.length < 65536) → ofHex t = .ok words := by
    intro t h hlength
    have hsplit : Annotated words (Lines.split t) ∧
        ∀ l ∈ Lines.split t, l.length < Lines.usualBound := by
      dsimp only [Lines.split]
      split
      · next hlast =>
        obtain ⟨lines, hlines⟩ := List.getLast?_eq_some_iff.1 hlast
        rw [hlines] at h hlength ⊢
        rw [List.dropLast_concat]
        exact ⟨h.init, fun l hl => hlength l (List.mem_append_left _ hl)⟩
      · exact ⟨h, hlength⟩
    obtain ⟨os, hos, hwords⟩ := hsplit.1.read
    rw [ofHex, Lines.scan_eq hsplit.2]
    refine bind_ok_iff.2 ⟨os, mapM_zipIdx_ok ?_ 1, congrArg Except.ok hwords⟩
    exact List.forall₂_map_left_iff.2 hos
  have hlines : splitOn newline (toHex words) = words.map wordLine ++ [[]] := by
    refine Lines.splitOn_unlines (List.forall_mem_map.2 fun w _ hnewline => ?_)
    exact absurd ((token_wordLine w).plain _ hnewline) (by decide)
  refine ⟨hall _ ?_ ?_, hall⟩
  · rw [hlines]
    exact annotated_map words
  · rw [hlines]
    intro l hl
    rcases List.mem_append.1 hl with hl | hl
    · obtain ⟨w, -, rfl⟩ := List.mem_map.1 hl
      rw [length_wordLine]
      decide
    · simp [List.mem_singleton.1 hl]

/-- Blank lines, comments behind words and on lines of their own, and no newline at the end. -/
theorem ofHex_annotated_remarks :
    let t := text "\n \t# head\r\ndeadbeef\t# first\n\n00000007#\n# end"
    (Annotated [0xDEADBEEF, 7] (splitOn newline t) ∧
      ∀ line ∈ splitOn newline t, line.length < 65536) ∧
      ofHex t = .ok [0xDEADBEEF, 7] := by
  intro t
  have hlines : splitOn newline t = [[], text " \t# head\r",
      wordLine 0xDEADBEEF ++ text "\t# first", [], wordLine 7 ++ text "#", text "# end"] := by
    decide +kernel
  have ht : Annotated [0xDEADBEEF, 7] (splitOn newline t) := by
    rw [hlines]
    refine .remark isRemark_nil (.remark ⟨text " \t", text "# head\r", ?_, ?_, .inr rfl⟩ (.word _
      ⟨text "\t", text "# first", ?_, ?_, .inr rfl⟩ (.remark isRemark_nil (.word _
      ⟨[], text "#", ?_, ?_, .inr rfl⟩ (.remark ⟨[], text "# end", ?_, ?_, .inr rfl⟩ .nil)))))
    all_goals decide
  have hlength : ∀ line ∈ splitOn newline t, line.length < 65536 := by
    rw [hlines]
    decide
  exact ⟨⟨ht, hlength⟩, (ofHex_annotated _).2 t ht hlength⟩

end WordFile

end StackCompiler
