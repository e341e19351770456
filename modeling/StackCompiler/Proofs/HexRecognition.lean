/-
**When a container is taken for hex text.**

A file is looked at as text first.  If every line of it holds hexadecimal digits and blanks only, up
to its comment, it is read as hex text and not as a container.  Nothing is asked of a comment, so
the bytes of a container can pass for one: a magic that starts with `//` makes everything up to the
next newline a comment.  What is then read is never the container, because two digits make one byte,
and because the usual magic is no text.  So a container is read as such exactly if some line of its
bytes is no line of hex text.

* `HexText.length_of_read` — **two digits make one byte**;
* `Container.length_of_parse` — **a container is no longer than the bytes that it is read from**;
* `Container.decode_build` — **when a container is read as such**.
-/

import Mathlib.Data.List.Flatten
import StackCompiler.Proofs.AsciiText
import StackCompiler.Proofs.ContainerBytes
import StackCompiler.Proofs.TextLines

namespace StackCompiler

/-! ### Comments -/

namespace Text

theorem beforeFrom_eq (mark t seen : Text) :
    beforeFrom mark t seen = seen.reverse ++ before mark t := by
  induction t generalizing seen with
  | nil => simp [before, beforeFrom]
  | cons c t ih =>
      rw [before, beforeFrom, beforeFrom]
      split
      · simp
      · rw [ih (c :: seen), ih [c]]
        simp

theorem before_cons (mark : Text) (c : UInt8) (t : Text) :
    before mark (c :: t) = if mark.isPrefixOf (c :: t) then [] else c :: before mark t := by
  rw [before, beforeFrom]
  split
  · rfl
  · exact beforeFrom_eq mark t [c]

/-- What follows the part before a mark starts with the mark, if anything follows. -/
theorem before_append (mark t : Text) :
    ∃ rest, t = before mark t ++ rest ∧ (rest = [] ∨ mark <+: rest) := by
  induction t with
  | nil => exact ⟨[], rfl, Or.inl rfl⟩
  | cons c t ih =>
      obtain ⟨rest, ht, hrest⟩ := ih
      rw [before_cons]
      split
      · next hmark => exact ⟨c :: t, rfl, Or.inr (List.isPrefixOf_iff_prefix.1 hmark)⟩
      · exact ⟨rest, congrArg (c :: ·) ht, hrest⟩

/-- The part before a mark does not go beyond a place where the mark stands. -/
theorem before_prefix {mark : Text} (front : Text) {rest : Text}
    (h : rest = [] ∨ mark <+: rest) : before mark (front ++ rest) <+: front := by
  induction front with
  | nil =>
      rw [List.nil_append]
      cases rest with
      | nil => exact List.prefix_rfl
      | cons c rest =>
          have hnone : before mark (c :: rest) = [] := by
            rw [before_cons, if_pos (List.isPrefixOf_iff_prefix.2 (h.resolve_left nofun))]
          exact hnone ▸ List.nil_prefix
  | cons c front ih =>
      rw [List.cons_append, before_cons]
      split
      · exact List.nil_prefix
      · exact (List.prefix_cons_inj c).2 ih

end Text

/-! ### Hex text -/

namespace HexText

/-- A line of hex text: digits and blanks, and perhaps a comment behind them. -/
def IsHexLine (line : Text) : Prop :=
  ∃ front rest, line = front ++ rest ∧ (∀ c ∈ front, mayStand c) ∧
    (rest = [] ∨ commentMark <+: rest)

variable {line : Text}

theorem isHexLine_iff :
    (Text.before commentMark line).all mayStand = true ↔ IsHexLine line := by
  rw [List.all_eq_true]
  constructor
  · intro h
    obtain ⟨rest, hline, hrest⟩ := Text.before_append commentMark line
    exact ⟨_, rest, hline, h, hrest⟩
  · rintro ⟨front, rest, rfl, hfront, hrest⟩ c hc
    exact hfront c ((Text.before_prefix front hrest).subset hc)

/-- **The texts that are taken for hex text.** -/
theorem looksLike_iff {t : Text} :
    looksLike t = true ↔ ∀ line ∈ Text.splitOn Text.newline t, IsHexLine line := by
  rw [looksLike, List.all_eq_true]
  exact forall₂_congr fun line _ => isHexLine_iff

/-- What can not stand outside a comment stands behind the mark of one. -/
theorem IsHexLine.comment (h : IsHexLine line) {c : UInt8} (hc : c ∈ line)
    (hstand : mayStand c = false) : commentMark <:+: line := by
  obtain ⟨front, rest, rfl, hfront, hrest⟩ := h
  rcases List.mem_append.1 hc with hc | hc
  · rw [hfront c hc] at hstand
    cases hstand
  · rcases hrest with rfl | hrest
    · cases hc
    · exact hrest.isInfix.trans (List.suffix_append front rest).isInfix

theorem length_of_pairs {digits seen bytes : List UInt8} (h : pairs digits seen = some bytes) :
    2 * bytes.length = digits.length + 2 * seen.length := by
  fun_induction pairs digits seen with
  | case1 seen =>
      obtain rfl := Option.some.inj h
      simp
  | case2 => cases h
  | case3 hi lo rest seen ih =>
      have := ih h
      simp only [List.length_cons] at this ⊢
      omega

theorem length_of_readLine {n : Nat} {bytes : List UInt8}
    (h : readLine n line = .ok bytes) : 2 * bytes.length ≤ line.length := by
  unfold readLine at h
  split at h
  · next hpairs =>
    obtain rfl := Except.ok.inj h
    have hdigits := length_of_pairs hpairs
    have hvalues := List.length_filterMap_le value? (Text.before commentMark line)
    obtain ⟨rest, hline, -⟩ := Text.before_append commentMark line
    have hbefore := congrArg List.length hline
    rw [List.length_append] at hbefore
    rw [List.length_nil] at hdigits
    omega
  · cases h

theorem length_of_readLines {lines : List Text} {n : Nat} {bytes : List (List UInt8)}
    (h : (lines.zipIdx n).mapM (fun x => readLine x.2 x.1) = .ok bytes) :
    2 * bytes.flatten.length ≤ lines.flatten.length := by
  induction lines generalizing n bytes with
  | nil =>
      obtain rfl := Except.ok.inj h
      exact Nat.le_refl _
  | cons line lines ih =>
      rw [List.zipIdx_cons] at h
      obtain ⟨b, bs, hline, hlines, rfl⟩ := mapM_cons_ok_iff.1 h
      have : 2 * b.length ≤ line.length := length_of_readLine hline
      have := ih hlines
      simp only [List.flatten_cons, List.length_append]
      omega

theorem length_of_scan (bound : Nat) (t : Text) :
    (Lines.scan bound t).lines.flatten.length ≤ t.length := by
  have hreturn : ∀ lines : List Text,
      (lines.map Lines.dropReturn).flatten.length ≤ lines.flatten.length := by
    intro lines
    induction lines with
    | nil => exact Nat.le_refl _
    | cons line lines ih =>
        have hline : (Lines.dropReturn line).length ≤ line.length := by
          unfold Lines.dropReturn
          split
          · exact (List.dropLast_sublist line).length_le
          · exact Nat.le_refl _
        simp only [List.map_cons, List.flatten_cons, List.length_append]
        omega
  have hsplit : (Lines.split t).Sublist (Text.splitOn Text.newline t) := by
    dsimp only [Lines.split]
    split
    · exact List.dropLast_sublist _
    · exact List.Sublist.refl _
  calc (Lines.scan bound t).lines.flatten.length
      ≤ ((Lines.split t).takeWhile (·.length < bound)).flatten.length := hreturn _
    _ ≤ (Text.splitOn Text.newline t).flatten.length :=
        ((List.takeWhile_sublist _).trans hsplit).flatten.length_le
    _ ≤ t.length := by
        rw [Text.flatten_splitOn]
        exact List.length_filter_le _ t

/-- **Two digits make one byte**, so what is read is at most half as long as the text. -/
theorem length_of_read {t : Text} {bytes : List UInt8} (h : read t = .ok bytes) :
    2 * bytes.length ≤ t.length := by
  obtain ⟨rows, hrows, h⟩ := bind_ok_iff.1 h
  split at h
  · cases h
  · obtain rfl := Except.ok.inj h
    exact Nat.le_trans (length_of_readLines hrows) (length_of_scan bound t)

end HexText

/-! ### Lengths of what is read -/

namespace SymbolTable

variable {c c' : Cursor} {part : Part}

theorem length_of_word {w : UInt32} (h : c.word part = .ok (w, c')) :
    c.rest.length = c'.rest.length + 4 := by
  unfold Cursor.word at h
  split at h
  · next hrest =>
    obtain ⟨-, rfl⟩ := Prod.mk.inj (Except.ok.inj h)
    rw [hrest]
    rfl
  · cases h

theorem length_of_take {n : Nat} {bs : List UInt8}
    (h : c.take part n = .ok (bs, c')) : c.rest.length = c'.rest.length + bs.length := by
  unfold Cursor.take at h
  split at h
  · cases h
  · obtain ⟨rfl, rfl⟩ := Prod.mk.inj (Except.ok.inj h)
    dsimp only
    rw [List.length_drop, List.length_take]
    omega

theorem length_of_flags {bs : UInt8 × UInt8 × UInt8}
    (h : c.flags part = .ok (bs, c')) : c.rest.length = c'.rest.length + 3 := by
  unfold Cursor.flags at h
  split at h
  · next hrest =>
    obtain ⟨-, rfl⟩ := Prod.mk.inj (Except.ok.inj h)
    rw [hrest]
    rfl
  · cases h

/-- A row is read from as many bytes as it is built of. -/
theorem length_of_row {index : Nat} {s : Symbol}
    (h : c.row index = .ok (s, c')) : c.rest.length = c'.rest.length + (buildRow s).length := by
  obtain ⟨⟨length, c₁⟩, hlength, h⟩ := bind_ok_iff.1 h
  obtain ⟨⟨name, c₂⟩, hname, h⟩ := bind_ok_iff.1 h
  obtain ⟨⟨⟨kind, binding, defined⟩, c₃⟩, hflags, h⟩ := bind_ok_iff.1 h
  obtain ⟨⟨address, c₄⟩, haddress, h⟩ := bind_ok_iff.1 h
  obtain ⟨rfl, rfl⟩ := Prod.mk.inj (pure_ok_iff.1 h)
  have h₁ := length_of_word hlength
  have h₂ := length_of_take hname
  have h₃ := length_of_flags hflags
  have h₄ := length_of_word haddress
  rw [length_buildRow]
  dsimp only at h₁ h₂ h₃ h₄ ⊢
  omega

theorem length_of_rowsFrom {left index : Nat} {c : Cursor} {seen symbols : List Symbol}
    (h : rowsFrom left index c seen = .ok symbols) :
    ∃ rows, symbols = seen.reverse ++ rows ∧ (rows.flatMap buildRow).length ≤ c.rest.length := by
  induction left generalizing index c seen with
  | zero =>
      obtain rfl := Except.ok.inj h
      exact ⟨[], (List.append_nil _).symm, Nat.zero_le _⟩
  | succ left ih =>
      obtain ⟨⟨s, c'⟩, hrow, h⟩ := bind_ok_iff.1 h
      obtain ⟨rows, rfl, hrows⟩ := ih h
      refine ⟨s :: rows, by rw [List.reverse_cons, List.append_assoc, List.singleton_append], ?_⟩
      rw [List.flatMap_cons, List.length_append]
      have := length_of_row hrow
      omega

/-- A table is no longer than the bytes that it is read from. -/
theorem length_of_parse {bytes : List UInt8} {symbols : List Symbol}
    (h : parse bytes = .ok symbols) : (build symbols).length ≤ bytes.length := by
  unfold parse at h
  split at h
  · obtain rfl := Except.ok.inj h
    exact Nat.zero_le _
  · obtain ⟨⟨count, c⟩, hcount, h⟩ := bind_ok_iff.1 h
    obtain ⟨rows, rfl, hrows⟩ := length_of_rowsFrom h
    have hword := length_of_word hcount
    dsimp only at hword hrows
    rw [build]
    split
    · exact Nat.zero_le _
    · rw [List.length_append, hword]
      simp only [LittleEndian.bytes32, List.length_cons, List.length_nil]
      omega

end SymbolTable

namespace Container

theorem takeSection_ok {name : String} {total start size : Nat} {bs part rest : List UInt8}
    (h : takeSection name total start size bs = .ok (part, rest)) :
    part.length + rest.length = bs.length := by
  unfold takeSection at h
  split at h
  · cases h
  · obtain ⟨rfl, rfl⟩ := Prod.mk.inj (Except.ok.inj h)
    rw [← List.length_append, List.take_append_drop]

theorem length_of_header {bytes rest : List UInt8} {h : Header}
    (hread : Header.read? bytes = some (h, rest)) : bytes.length = headerSize + rest.length := by
  revert hread
  fun_cases Header.read? bytes with
  | case1 =>
      intro hread
      obtain ⟨-, rfl⟩ := Prod.mk.inj (Option.some.inj hread)
      simp only [List.length_cons, headerSize]
      omega
  | case2 => exact nofun

theorem length_build (c : Container) : (build c).length =
    headerSize + c.code.length + c.data.length + (SymbolTable.build c.symbols).length := by
  simp only [build, List.length_append, Header.length_bytes]

/-- **A container is no longer than the bytes that it is read from**, a code section apart. -/
theorem length_of_parse {bytes : List UInt8} {c : Container} (h : parse bytes = .ok c)
    (hbare : isBareCode bytes = false) : (build c).length ≤ bytes.length := by
  rw [parse, hbare, if_neg Bool.false_ne_true] at h
  split at h
  · cases h
  · next header rest hheader =>
    obtain ⟨⟨code, rest₁⟩, hcode, h⟩ := bind_ok_iff.1 h
    obtain ⟨⟨data, rest₂⟩, hdata, h⟩ := bind_ok_iff.1 h
    obtain ⟨⟨table, rest₃⟩, htable, h⟩ := bind_ok_iff.1 h
    obtain ⟨symbols, hsymbols, rfl⟩ := bind_pure_ok_iff.1 h
    have := length_of_header hheader
    have := takeSection_ok hcode
    have := takeSection_ok hdata
    have := takeSection_ok htable
    have := SymbolTable.length_of_parse (mapError_ok_iff.1 hsymbols)
    rw [length_build]
    dsimp only at *
    omega

/-! ### Containers and hex text -/

/-- A container is never made of printable characters alone: without symbols its header holds zeros,
and a symbol says with a byte below two whether it is defined. -/
theorem exists_unprintable (c : Container) : ∃ b ∈ build c, b < 2 := by
  cases hsymbols : c.symbols with
  | nil =>
      refine ⟨0, ?_, by decide⟩
      have htable : SymbolTable.build c.symbols = [] := by rw [hsymbols]; rfl
      simp [build, htable, Header.bytes, LittleEndian.bytes32]
  | cons s symbols =>
      refine ⟨if s.defined then 1 else 0, ?_, by split <;> decide⟩
      simp [build, hsymbols, SymbolTable.build, SymbolTable.buildRow]

/-- A container with the usual magic is not taken for hex text. -/
theorem looksLike_usual {c : Container} (h : (if c.magic = Magic.absent then Magic.usual
    else c.magic) = Magic.usual) : HexText.looksLike (build c) = false := by
  have hbuild : ∃ t, build c = 86 :: t := by
    rw [build, h]
    exact ⟨_, rfl⟩
  obtain ⟨t, ht⟩ := hbuild
  obtain ⟨line, lines, hlines⟩ := Text.splitOn_eq_cons Text.newline t
  rw [ht, HexText.looksLike, Text.splitOn_cons (by decide), hlines, List.modifyHead_cons,
    List.all_cons, Text.before_cons, if_neg (by simp [HexText.commentMark])]
  rfl

/-- **When a container is read as such.**  Let the magic of a container be none of a code section,
and let the sizes of its sections fit the words of the header.  Then its bytes are read as what they
are exactly if some line of them is no line of hex text.  This is so whenever they do not hold the
mark of a comment. -/
theorem decode_build (c : Container) (hmagic : ∀ f : Format, c.magic.bytes ≠ f.magic)
    (hcode : c.code.length < 2 ^ 32) (hdata : c.data.length < 2 ^ 32)
    (htable : (SymbolTable.build c.symbols).length < 2 ^ 32) :
    (decode (build c) = parse (build c) ↔
      ∃ line ∈ Text.splitOn Text.newline (build c), ¬HexText.IsHexLine line) ∧
    (Text.occursIn HexText.commentMark (build c) = false → decode (build c) = parse (build c)) := by
  have hbinary : HexText.looksLike (build c) = false → decode (build c) = parse (build c) := by
    intro hlooks
    rw [decode, rawBytes, if_neg (by simp [hlooks])]
    rfl
  refine ⟨⟨fun heq => ?_, fun ⟨line, hline, hno⟩ => ?_⟩, fun hcomment => ?_⟩
  · by_contra hnone
    have hlooks : HexText.looksLike (build c) = true :=
      HexText.looksLike_iff.2 fun line hline => by_contra fun hno => hnone ⟨line, hline, hno⟩
    -- what is read instead would have to be the container
    rw [parse_of_not_bare (isBareCode_build hmagic) hcode hdata htable, decode, rawBytes,
      if_pos hlooks] at heq
    obtain ⟨bytes, hbytes, heq⟩ := bind_ok_iff.1 heq
    have hhalf := HexText.length_of_read (mapError_ok_iff.1 hbytes)
    have hlength := length_build c
    cases hbare : isBareCode bytes with
    | true =>
        rw [parse, hbare, if_pos rfl] at heq
        have husual := congrArg Container.magic (Except.ok.inj heq)
        rw [looksLike_usual husual.symm] at hlooks
        cases hlooks
    | false =>
        have hlong := length_of_parse heq hbare
        rw [length_build] at hlong
        dsimp only [headerSize] at hlong hlength
        omega
  · refine hbinary (Bool.eq_false_iff.2 fun hlooks => hno ?_)
    exact HexText.looksLike_iff.1 hlooks line hline
  · refine hbinary (Bool.eq_false_iff.2 fun hlooks => ?_)
    obtain ⟨b, hb, hlt⟩ := exists_unprintable c
    have hstand : HexText.mayStand b = false ∧ b ≠ Text.newline :=
      Text.forall_lt_128 (P := fun b => b < 2 → HexText.mayStand b = false ∧ b ≠ Text.newline)
        (by decide) (UInt8.lt_trans hlt (by decide)) hlt
    have hflat : b ∈ (Text.splitOn Text.newline (build c)).flatten := by
      rw [Text.flatten_splitOn]
      exact List.mem_filter.2 ⟨hb, by simpa using hstand.2⟩
    obtain ⟨line, hline, hb⟩ := List.mem_flatten.1 hflat
    have hinfix := ((HexText.looksLike_iff.1 hlooks line hline).comment hb hstand.1).trans
      (Text.infix_of_mem_splitOn hline)
    rw [Text.occursIn_iff.2 hinfix] at hcomment
    cases hcomment

/-- Digits, a comment without an end of its own and a newline in the data do not make a container
hex text, since its header holds zeros outside of the comment. -/
theorem decode_build_digits :
    let c : Container := ⟨⟨49, 70, 50, 69⟩, [], text "\n//", [], 0x2F2F2F2F⟩
    ((∀ f : Format, c.magic.bytes ≠ f.magic) ∧ Text.occursIn HexText.commentMark (build c) = true) ∧
      decode (build c) = parse (build c) := by
  intro c
  have hmagic : ∀ f : Format, c.magic.bytes ≠ f.magic := by
    intro f
    cases f <;> decide
  refine ⟨⟨hmagic, by decide⟩, ?_⟩
  refine (decode_build c hmagic (by decide) (by decide) (by decide)).1.2 ?_
  exact ⟨(build c).take 20, by decide, HexText.isHexLine_iff.not.1 (by decide)⟩

/-- **A magic that starts a comment** makes a container hex text, of which nothing is left. -/
theorem decode_build_comment :
    let c : Container := ⟨⟨47, 47, 65, 66⟩, [], [], [], 0⟩
    (∀ f : Format, c.magic.bytes ≠ f.magic) ∧ parse (build c) = .ok c ∧
      decode (build c) = .error (.shortHeader 0) ∧ decode (build c) ≠ parse (build c) := by
  intro c
  have hmagic : ∀ f : Format, c.magic.bytes ≠ f.magic := by
    intro f
    cases f <;> decide
  have hparse : parse (build c) = .ok c :=
    parse_of_not_bare (isBareCode_build hmagic) (by decide) (by decide) (by decide)
  have hdecode : decode (build c) = .error (.shortHeader 0) := by decide +kernel
  refine ⟨hmagic, hparse, hdecode, ?_⟩
  rw [hparse, hdecode]
  exact nofun

end Container

end StackCompiler
